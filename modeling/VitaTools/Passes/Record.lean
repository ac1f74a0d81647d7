import VitaTools.Passes.Agree
import VitaTools.Passes.Hidden
import VitaTools.Passes.Spelled

set_option autoImplicit false

namespace VitaTools.Passes

open VitaTools.Library VitaTools.Library.Traced
open VitaTools.Decompiler (Text Word)
open VitaTools.Decompiler.Globals (opName)

variable {α : Type} [Alphabet α]

def mnemonicOf (insn : CsInsn) : Text := (trimMnemonic insn).1

def codeOf (insn : CsInsn) : Text := getInstructionCode insn (mnemonicOf insn)

def scratch (reg : Word) : Bool :=
  reg == ArmReg.r0 || reg == ArmReg.r1 || reg == ArmReg.r2 || reg == ArmReg.r3

namespace Globals

variable (session : Session) (insn : CsInsn) (mnemonic : Text) (addr : Word) (code : List α)
variable (g : Globals α)

-- The code behind `parseOperations`.
def parsed : List α := (parseOperations insn false code (useFlagsOf insn g)).1

def records : Bool := isAssignment (parsed insn code g)

-- What `assignRegister` leaves for the first operand.
def recorded : Option (RegisterAssignmentEntry α) :=
  (assignRegister session insn mnemonic addr (parsed insn code g) false
    (useFlagsOf insn g)).2.regAssignMap (insn.operands 0).base

variable {session insn mnemonic addr code g}

theorem assignRegister_map (reg : Word) :
    (assignRegister session insn mnemonic addr code false g).2.regAssignMap reg =
      if reg = (insn.operands 0).base then
        (assignRegister session insn mnemonic addr code false g).2.regAssignMap
          (insn.operands 0).base
      else g.regAssignMap reg := by
  split
  case isTrue same => rw [same]
  case isFalse other =>
    rw [assignRegister]
    dsimp only
    split
    · exact Function.update_of_ne other _ _
    · split <;> exact Function.update_of_ne other _ _

theorem recorded_conditional (conditional : insn.conditional = true) :
    recorded session insn mnemonic addr code g = none := by
  rw [recorded, assignRegister, if_pos conditional]
  exact Function.update_self _ _ _

theorem recorded_some (unconditional : insn.conditional = false) :
    ∃ entry, recorded session insn mnemonic addr code g = some entry ∧ entry.addr = addr := by
  rw [recorded, assignRegister, if_neg (by simp [unconditional])]
  dsimp only
  split
  · exact ⟨_, Function.update_self _ _ _, rfl⟩
  · exact ⟨_, Function.update_self _ _ _, rfl⟩

omit [Alphabet α] in
theorem clear_map (reg : Word) :
    g.clearRegAssignMapAfterBranch.regAssignMap reg =
      if scratch reg then none else g.regAssignMap reg := by
  simp only [clearRegAssignMapAfterBranch, assign, Function.update_apply, scratch,
    Bool.or_eq_true, beq_iff_eq]
  split_ifs <;> simp_all

variable (session insn mnemonic addr code g)

theorem recordAssignment_map (reg : Word) :
    (recordAssignment session insn mnemonic addr false (parsed insn code g)
        (useFlagsOf insn g)).2.regAssignMap reg =
      if records insn code g = true ∧ reg = (insn.operands 0).base then
        recorded session insn mnemonic addr code g
      else g.regAssignMap reg := by
  rw [recordAssignment]
  by_cases assigns : isAssignment (parsed insn code g) = true
  next =>
    rw [if_pos assigns, assignRegister_map]
    simp only [records, assigns, true_and]
    rfl
  next =>
    rw [if_neg assigns, if_neg fun both => assigns both.1]
    rfl

theorem translateCode_map (analyse : Bool) (reg : Word) :
    (translateCode session insn mnemonic addr code analyse g).2.regAssignMap reg =
      if isCall mnemonic = true ∧ scratch reg = true then none
      else if records insn code g = true ∧ reg = (insn.operands 0).base then
        recorded session insn mnemonic addr code g
      else g.regAssignMap reg := by
  have alike := translateCode_alike (SameMaps.refl g) session insn mnemonic addr code analyse false
  rw [alike.maps.map, ← recordAssignment_map]
  have quiet : (parseOperations insn false code (useFlagsOf insn g)).2 = useFlagsOf insn g :=
    parseFrom_globals insn _ 0 code _
  rw [translateCode]
  simp only [replaceSymbols, replaceSymbol_globals, quiet]
  change _ = if _ then none else (recordAssignment session insn mnemonic addr false
    (parseOperations insn false code (useFlagsOf insn g)).1 (useFlagsOf insn g)).2.regAssignMap reg
  by_cases call : isCall mnemonic = true
  next =>
    simp only [call, if_true, true_and]
    exact clear_map reg
  next => simp only [call, Bool.false_eq_true, if_false, false_and]

end Globals

def assignsFirst (text : Text) : Bool := "op0 = ".toList.isPrefixOf text

/-- The text begins with what no operand reaches, and what makes it no assignment of a variable
stands there. -/
structure Settled (front : Text) (c : Char) (text : Text) : Prop where
  whole : ∃ back, text = front ++ c :: back
  quiet : 'p' ∉ front
  ends : c.isAlphanum = false
  long : 3 ≤ front.length
  other :
    (front ++ [c])[3]? ≠ some '=' ∨ 11 ≤ front.length ∧ (front.drop 5).take 6 = "symbol".toList

variable {front text : Text} {c : Char}

theorem Settled.parseOperand (insn : CsInsn) (i : Nat) {code : List α} {g : Globals α}
    (settled : Settled front c (spell code)) :
    Settled front c (spell (Globals.parseOperand insn false i code g).1) := by
  refine { settled with whole := ?_ }
  obtain ⟨back, whole⟩ := settled.whole
  rw [Globals.parseOperand]
  dsimp only
  split
  next replacement _ =>
    have name : 'p' ∈ opName i := List.mem_append_left _ (by decide)
    have apart : Alphabet.char c ∉ opName i := fun member => by
      have letter := opName_letters i c member
      rw [settled.ends] at letter
      contradiction
    rw [spell_replaced, whole, replaceAll_cut apart (List.ne_nil_of_mem name),
      replaceAll_of_absent name (by rw [spell_char]; exact settled.quiet)]
    exact ⟨_, rfl⟩
  next => exact ⟨back, whole⟩

theorem Settled.parseFrom (insn : CsInsn) (left i : Nat) {code : List α} {g : Globals α}
    (settled : Settled front c (spell code)) :
    Settled front c (spell (Globals.parseFrom insn false left i code g).1) := by
  induction left generalizing i code g with
  | zero => exact settled
  | succ left ih => exact ih (i + 1) (settled.parseOperand insn i)

theorem Settled.not_assignment {code : List α} (settled : Settled front c (spell code)) :
    Globals.isAssignment code = false := by
  obtain ⟨back, whole⟩ := settled.whole
  have long := settled.long
  rw [Globals.isAssignment, whole, Bool.and_eq_false_iff]
  rcases settled.other with other | ⟨longer, call⟩
  · left
    rw [List.append_cons, List.getElem?_append_left (by simp; omega)]
    simpa using other
  · right
    rw [List.drop_append_of_le_length (by omega), List.take_append_of_le_length (by simp; omega),
      call]
    rfl

-- Whether the text is settled by its first `length` letters.
def settledBy (text : Text) (length : Nat) : Bool :=
  match text.drop length with
  | [] => false
  | c :: _ =>
      let front := text.take length
      !front.contains 'p' && !c.isAlphanum && 3 ≤ length &&
        ((front ++ [c])[3]? != some '=' ||
          11 ≤ length && (front.drop 5).take 6 == "symbol".toList)

theorem settled_of_by {length : Nat} (settles : settledBy text length = true) (rest : Text) :
    ∃ front c, Settled front c (text ++ rest) := by
  rw [settledBy] at settles
  split at settles
  next => contradiction
  next c back behind =>
    have whole : text = text.take length ++ c :: back := by rw [← behind, List.take_append_drop]
    have inside : length ≤ text.length := by
      by_contra long
      rw [List.drop_eq_nil_of_le (by omega)] at behind
      cases behind
    simp only [Bool.and_eq_true, Bool.or_eq_true, Bool.not_eq_true', bne_iff_ne, beq_iff_eq,
      decide_eq_true_eq, List.contains_eq_mem, decide_eq_false_iff_not] at settles
    obtain ⟨⟨⟨quiet, ends⟩, long⟩, other⟩ := settles
    have taken : (text.take length).length = length := List.length_take_of_le inside
    refine ⟨text.take length, c, ⟨back ++ rest, ?_⟩, quiet, ends, by omega, by rwa [taken]⟩
    rw [← List.cons_append, ← List.append_assoc, ← whole]

theorem templates_settled : ∀ row ∈ instructions ++ instructions2,
    assignsFirst row.2.toList = false →
      ∃ length ∈ List.range 14, settledBy row.2.toList length = true := by
  decide +kernel

theorem template_char (text : Text) : (template text : Text) = text := by
  rw [template]
  split
  next call =>
    obtain ⟨rest, rfl⟩ := List.isPrefixOf_iff_prefix.mp call
    simp
  next => exact plain_char text

theorem getInstructionCode_row {insn : CsInsn} {mnemonic : Text}
    (known : (getInstructionCode insn mnemonic : Text).isEmpty = false) :
    ∃ row ∈ instructions ++ instructions2, ∃ rest,
      getInstructionCode insn mnemonic = row.2.toList ++ rest := by
  rw [getInstructionCode] at known ⊢
  cases found : instructions.lookup (String.ofList mnemonic) with
  | none =>
      rw [found] at known
      contradiction
  | some text =>
      simp only [template_char]
      split
      next =>
        cases shorter : instructions2.lookup (String.ofList mnemonic) with
        | none => exact ⟨_, List.mem_append_left _ (mem_of_lookup found), _, rfl⟩
        | some text => exact ⟨_, List.mem_append_right _ (mem_of_lookup shorter), _, rfl⟩
      next => exact ⟨_, List.mem_append_left _ (mem_of_lookup found), _, rfl⟩

theorem records_assigns {insn : CsInsn} {mnemonic : Text} {g : Globals α}
    (known : (getInstructionCode insn mnemonic : List α).isEmpty = false)
    (records : g.records insn (getInstructionCode insn mnemonic) = true) :
    assignsFirst (getInstructionCode insn mnemonic) = true := by
  by_contra other
  rw [isEmpty_getInstructionCode] at known
  obtain ⟨row, inTable, rest, whole⟩ := getInstructionCode_row known
  have first : assignsFirst row.2.toList = false := by
    by_contra first
    obtain ⟨back, same⟩ := List.isPrefixOf_iff_prefix.mp (Bool.of_not_eq_false first)
    refine other (List.isPrefixOf_iff_prefix.mpr ⟨back ++ rest, ?_⟩)
    rw [whole, ← List.append_assoc, same]
  obtain ⟨length, -, settles⟩ := templates_settled row inTable first
  obtain ⟨front, c, settled⟩ := settled_of_by settles rest
  rw [← whole, ← spell_getInstructionCode (α := α)] at settled
  have none := (settled.parseFrom insn insn.opCount 0
    (g := Globals.useFlagsOf insn g)).not_assignment
  rw [Globals.records, Globals.parsed, Globals.parseOperations, none] at records
  contradiction

end VitaTools.Passes
