import VitaTools.Library.Cycle
import VitaTools.VitaModule.Analyse

set_option autoImplicit false

namespace VitaTools.VitaModule

open VitaTools.Library
open VitaTools.Thgn (Imports Segment HookEntry Image addressSpace)

-- `while (i < bottom) i += size`.
def cursorLoop (size : Word → Word) (bottom : Word) : Loop Word where
  more i := decide (i < bottom)
  pass i := i + size i

def exportSize (data : Segment) (i : Word) : Word := (exportsTable data i).size.setWidth 32

def importSize (data : Segment) (i : Word) : Word :=
  (convertToImportsTable3xx data i).size.setWidth 32

section

variable (size : Word → Word) (bottom top : Word)

-- The records that the walk comes to.
def Reached (i : Word) : Prop :=
  Relation.ReflTransGen (cursorLoop size bottom).Follows top i ∧ i < bottom

/-- No record that is reached leads back to itself. -/
def Straight : Prop :=
  ∀ i, Reached size bottom top i → ¬ Relation.TransGen (cursorLoop size bottom).Follows i i

variable {size bottom top}

theorem more_iff {i : Word} : (cursorLoop size bottom).more i = true ↔ i < bottom :=
  decide_eq_true_iff

theorem reached_of_visits {i : Word} (visited : (cursorLoop size bottom).Visits top i)
    (more : (cursorLoop size bottom).more i = true) : Reached size bottom top i :=
  ⟨Loop.visits_iff.mp visited, more_iff.mp more⟩

theorem returns_iff_straight : (cursorLoop size bottom).Returns top ↔ Straight size bottom top := by
  rw [Loop.returns_iff]
  constructor
  · exact fun straight i reached => straight i reached.1
  · intro straight i followed circle
    have more := (Loop.circles_iff.mp circle).1
    exact straight i ⟨followed, more_iff.mp more⟩ circle

theorem straight_iff_sizes
    (inside : ∀ i, Reached size bottom top i → i.toNat + (size i).toNat < 2 ^ 32) :
    Straight size bottom top ↔ ∀ i, Reached size bottom top i → size i ≠ 0 := by
  constructor
  next =>
    intro straight i reached none
    refine straight i reached (Relation.TransGen.single ⟨more_iff.mpr reached.2, ?_⟩)
    change i = i + size i
    rw [none]
    exact (BitVec.add_zero i).symm
  next =>
    intro moves i reached circle
    have grows {j : Word} (record : Reached size bottom top j) :
        j.toNat < (j + size j).toNat := by
      have room := inside j record
      have some : 0 < (size j).toNat := by
        have other := moves j record
        rw [Ne, ← BitVec.toNat_inj] at other
        exact Nat.pos_of_ne_zero other
      rw [BitVec.toNat_add, Nat.mod_eq_of_lt room]
      omega
    have further : ∀ j, Relation.TransGen (cursorLoop size bottom).Follows i j →
        i.toNat < j.toNat := by
      intro j ahead
      induction ahead with
      | single step =>
          obtain ⟨-, rfl⟩ := step
          exact grows reached
      | tail before step ih =>
          obtain ⟨more, rfl⟩ := step
          exact ih.trans (grows ⟨reached.1.trans before.to_reflTransGen, more_iff.mp more⟩)
    exact Nat.lt_irrefl _ (further i circle)

end

section

variable {session : Session} {data : Segment} {textAddr : Word}

theorem export_returns_iff {bottom : Word} (st : Exporting) :
    (exportLoop session data textAddr bottom).Returns st ↔
      (cursorLoop (exportSize data) bottom).Returns st.i := by
  have same (fuel : Nat) : (cursorLoop (exportSize data) bottom).run fuel st.i =
      ((exportLoop session data textAddr bottom).run fuel st).map fun st => st.i :=
    Loop.run_map (fun st => st.i) (fun _ => rfl) (fun _ => rfl) fuel st
  simp only [Loop.Returns, same, Option.isSome_map]

theorem import_returns_iff {bottom : Word} (st : Importing) :
    (importLoop session data textAddr bottom).Returns st ↔
      (cursorLoop (importSize data) bottom).Returns st.i := by
  have same (fuel : Nat) : (cursorLoop (importSize data) bottom).run fuel st.i =
      ((importLoop session data textAddr bottom).run fuel st).map fun st => st.i :=
    Loop.run_map (fun st => st.i) (fun _ => rfl) (fun _ => rfl) fuel st
  simp only [Loop.Returns, same, Option.isSome_map]

theorem export_calls {bottom : Word} {start st : Exporting}
    (visited : (exportLoop session data textAddr bottom).Visits start st) :
    ∀ call ∈ st.calls, call ∈ start.calls ∨
      ∃ i name, Reached (exportSize data) bottom start.i i ∧
        call ∈ (exportEntries session data textAddr (exportsTable data i)
          (exportsTable data i).entries 0 name).1 := by
  apply visited.invariant fun st => ∀ call ∈ st.calls, call ∈ start.calls ∨
    ∃ i name, Reached (exportSize data) bottom start.i i ∧
      call ∈ (exportEntries session data textAddr (exportsTable data i)
        (exportsTable data i).entries 0 name).1
  · exact fun call member => .inl member
  · intro s before holds more call member
    rcases List.mem_append.mp member with earlier | now
    · exact holds call earlier
    · have here : (cursorLoop (exportSize data) bottom).Visits start.i s.i :=
        before.map (fun st => st.i) (fun _ => rfl) fun _ => rfl
      exact .inr ⟨s.i, s.name, reached_of_visits here more, now⟩

theorem import_calls {bottom : Word} {start st : Importing}
    (visited : (importLoop session data textAddr bottom).Visits start st) :
    ∀ call ∈ st.calls, call ∈ start.calls ∨
      ∃ i, Reached (importSize data) bottom start.i i ∧
        call ∈ importEntries session data textAddr (convertToImportsTable3xx data i) := by
  apply visited.invariant fun st => ∀ call ∈ st.calls, call ∈ start.calls ∨
    ∃ i, Reached (importSize data) bottom start.i i ∧
      call ∈ importEntries session data textAddr (convertToImportsTable3xx data i)
  · exact fun call member => .inl member
  · intro s before holds more call member
    rcases List.mem_append.mp member with earlier | now
    · exact holds call earlier
    · have here : (cursorLoop (importSize data) bottom).Visits start.i s.i :=
        before.map (fun st => st.i) (fun _ => rfl) fun _ => rfl
      exact .inr ⟨s.i, reached_of_visits here more, now⟩

end

def imageOf (data : Segment) (info : SceModuleInfo) (vaddr : Word) : Image where
  modInfo := ⟨info.expTop.toNat, info.expBtm.toNat, info.impTop.toNat, info.impBtm.toNat⟩
  segment1 := data
  vaddr := vaddr

section

variable {size : Word → Word} {bottom : Word} {hooks : Nat → List HookEntry} {sizeOf : Nat → Nat}
variable (sizes : ∀ i : Word, sizeOf i.toNat = (size i).toNat)

include sizes

theorem walk_step (i : Word) : (i.toNat + sizeOf i.toNat) % 2 ^ 32 = (i + size i).toNat := by
  rw [sizes, BitVec.toNat_add]

theorem walk_isSome (passes : Nat) (i : Word) :
    (Thgn.walk hooks sizeOf bottom.toNat passes i.toNat).isSome =
      ((cursorLoop size bottom).run passes i).isSome := by
  induction passes generalizing i with
  | zero => rfl
  | succ passes ih =>
      rw [Thgn.walk, Loop.run]
      by_cases inside : i < bottom
      next =>
        rw [if_pos (BitVec.lt_def.mp inside), if_pos (more_iff.mpr inside), Option.isSome_map,
          walk_step sizes, ih]
        rfl
      next =>
        rw [if_neg fun less => inside (BitVec.lt_def.mpr less),
          if_neg fun more => inside (more_iff.mp more)]
        rfl

theorem walk_hooks {passes : Nat} {top : Word} {found : List HookEntry}
    (walked : Thgn.walk hooks sizeOf bottom.toNat passes top.toNat = some found) :
    ∀ hook ∈ found, ∃ i, Reached size bottom top i ∧ hook ∈ hooks i.toNat := by
  induction passes generalizing top found with
  | zero => cases walked
  | succ passes ih =>
      rw [Thgn.walk] at walked
      split at walked
      next less =>
        rw [walk_step sizes] at walked
        obtain ⟨later, rest, rfl⟩ := Option.map_eq_some_iff.mp walked
        have inside : top < bottom := BitVec.lt_def.mpr less
        intro hook member
        rcases List.mem_append.mp member with here | there
        · exact ⟨top, ⟨.refl, inside⟩, here⟩
        · obtain ⟨i, reached, hooked⟩ := ih rest hook there
          exact ⟨i, ⟨reached.1.head ⟨more_iff.mpr inside, rfl⟩, reached.2⟩, hooked⟩
      next =>
        cases walked
        intro hook member
        cases member

theorem walk_isSome_iff (top : Word) :
    (Thgn.walk hooks sizeOf bottom.toNat (addressSpace + 1) top.toNat).isSome = true ↔
      Straight size bottom top := by
  rw [walk_isSome sizes, ← returns_iff_straight]
  constructor
  · exact fun returned => ⟨_, returned⟩
  · intro returns
    have words : Nat.card Word = addressSpace := by
      have fin : Nat.card Word = Nat.card (Fin (2 ^ 32)) :=
        Nat.card_congr ⟨BitVec.toFin, BitVec.ofFin, fun _ => rfl, fun _ => rfl⟩
      rw [fin, Nat.card_fin]
      rfl
    have returned := Loop.run_card returns
    rwa [words] at returned

end

theorem exportsTable_size (data : Segment) (i : Word) :
    (Thgn.exportsTable data i.toNat).size = (exportSize data i).toNat := by
  rw [exportSize, BitVec.toNat_setWidth, Nat.mod_eq_of_lt]
  · rfl
  · exact (exportsTable data i).size.isLt.trans (by decide)

theorem importsTable_size (data : Segment) (i : Word) :
    (Thgn.importsTable data i.toNat).size = (importSize data i).toNat := by
  have wide (n : Nat) : ((data.behind i.toNat).half 0).toNat = n % 2 ^ 16 ↔
      (data.behind i.toNat).half 0 = BitVec.ofNat 16 n := by
    rw [← BitVec.toNat_inj, BitVec.toNat_ofNat]
  have whole : (convertToImportsTable3xx data i).size.toNat =
      (importSize data i).toNat := by
    rw [importSize, BitVec.toNat_setWidth, Nat.mod_eq_of_lt]
    exact (convertToImportsTable3xx data i).size.isLt.trans (by decide)
  have first : ((data.behind i.toNat).half 0).toNat = 52 ↔
      (data.behind i.toNat).half 0 = 52 := wide 52
  have second : ((data.behind i.toNat).half 0).toNat = 36 ↔
      (data.behind i.toNat).half 0 = 36 := wide 36
  rw [← whole, Thgn.importsTable, convertToImportsTable3xx]
  by_cases long : (data.behind i.toNat).half 0 = 52
  next =>
    rw [if_pos (first.mpr long), if_pos long]
  next =>
    rw [if_neg fun same => long (first.mp same), if_neg long]
    by_cases short : (data.behind i.toNat).half 0 = 36
    next => rw [if_pos (second.mpr short), if_pos short]
    next =>
      rw [if_neg fun same => short (second.mp same), if_neg short]
      rfl

theorem importSize_eq_zero {data : Segment} {i : Word} :
    importSize data i = 0 ↔
      (data.behind i.toNat).half 0 ≠ 52 ∧ (data.behind i.toNat).half 0 ≠ 36 := by
  rw [importSize, convertToImportsTable3xx]
  by_cases long : (data.behind i.toNat).half 0 = 52
  next =>
    have some : (52 : BitVec 16).setWidth 32 ≠ 0 := by decide
    rw [if_pos long, long]
    exact iff_of_false some fun both => both.1 rfl
  next =>
    rw [if_neg long]
    by_cases short : (data.behind i.toNat).half 0 = 36
    next =>
      have some : (36 : BitVec 16).setWidth 32 ≠ 0 := by decide
      rw [if_pos short, short]
      exact iff_of_false some fun both => both.2 rfl
    next =>
      rw [if_neg short]
      exact iff_of_true rfl ⟨long, short⟩

/-- Each of the loops ends exactly when no record that it reaches leads back to itself, and uses
only records below the end. Without a wrap at 2^32 that means a size in every record reached. -/
theorem walks_end_iff (session : Session) (data : Segment) (textAddr vaddr : Word)
    (lib : Option Thgn.Text) (name : Thgn.Text) (info : SceModuleInfo) :
    (((exportLoop session data textAddr info.expBtm).Returns ⟨info.expTop, name, []⟩ ↔
        Straight (exportSize data) info.expBtm info.expTop) ∧
      ((Thgn.getExports session.imports (imageOf data info vaddr) lib).isSome = true ↔
        Straight (exportSize data) info.expBtm info.expTop) ∧
      ((importLoop session data textAddr info.impBtm).Returns ⟨info.impTop, []⟩ ↔
        Straight (importSize data) info.impBtm info.impTop) ∧
      ((Thgn.getImports session.imports (imageOf data info vaddr) lib).isSome = true ↔
        Straight (importSize data) info.impBtm info.impTop)) ∧
    ((∀ st, (exportLoop session data textAddr info.expBtm).Visits ⟨info.expTop, name, []⟩ st →
        ∀ call ∈ st.calls, ∃ i before, Reached (exportSize data) info.expBtm info.expTop i ∧
          call ∈ (exportEntries session data textAddr (exportsTable data i)
            (exportsTable data i).entries 0 before).1) ∧
      (∀ hooks, Thgn.getExports session.imports (imageOf data info vaddr) lib = some hooks →
        ∀ hook ∈ hooks, ∃ i, Reached (exportSize data) info.expBtm info.expTop i ∧
          hook ∈ Thgn.exportHooks session.imports data vaddr lib i.toNat) ∧
      (∀ st, (importLoop session data textAddr info.impBtm).Visits ⟨info.impTop, []⟩ st →
        ∀ call ∈ st.calls, ∃ i, Reached (importSize data) info.impBtm info.impTop i ∧
          call ∈ importEntries session data textAddr (convertToImportsTable3xx data i)) ∧
      (∀ hooks, Thgn.getImports session.imports (imageOf data info vaddr) lib = some hooks →
        ∀ hook ∈ hooks, ∃ i, Reached (importSize data) info.impBtm info.impTop i ∧
          hook ∈ Thgn.importHooks session.imports data vaddr lib i.toNat)) ∧
    ((∀ i, Reached (exportSize data) info.expBtm info.expTop i →
        i.toNat + (exportSize data i).toNat < 2 ^ 32) →
      (Straight (exportSize data) info.expBtm info.expTop ↔
        ∀ i, Reached (exportSize data) info.expBtm info.expTop i → exportSize data i ≠ 0)) ∧
    ((∀ i, Reached (importSize data) info.impBtm info.impTop i →
        i.toNat + (importSize data i).toNat < 2 ^ 32) →
      (Straight (importSize data) info.impBtm info.impTop ↔
        ∀ i, Reached (importSize data) info.impBtm info.impTop i →
          (data.behind i.toNat).half 0 = 52 ∨ (data.behind i.toNat).half 0 = 36)) := by
  have exportSizes := exportsTable_size data
  have importSizes := importsTable_size data
  refine ⟨⟨?_, ?_, ?_, ?_⟩, ⟨?_, ?_, ?_, ?_⟩, straight_iff_sizes, fun inside => ?_⟩
  · exact (export_returns_iff _).trans returns_iff_straight
  · exact walk_isSome_iff exportSizes info.expTop
  · exact (import_returns_iff _).trans returns_iff_straight
  · exact walk_isSome_iff importSizes info.impTop
  · intro st visited call member
    exact (export_calls visited call member).resolve_left List.not_mem_nil
  · exact fun hooks walked => walk_hooks exportSizes walked
  · intro st visited call member
    exact (import_calls visited call member).resolve_left List.not_mem_nil
  · exact fun hooks walked => walk_hooks importSizes walked
  · rw [straight_iff_sizes inside]
    refine forall_congr' fun i => imp_congr_right fun _ => ?_
    rw [Ne, importSize_eq_zero, not_and_or, not_not, not_not]

def zeroTables : Segment := fun _ => 0

def zeroSession : Session := ⟨[], id⟩

def zeroInfo : SceModuleInfo := ⟨0, 32, 0, 36⟩

/-- A record of size zero holds each of the loops for ever. -/
theorem zeroTables_endless :
    ¬ (exportLoop zeroSession zeroTables 0 zeroInfo.expBtm).Returns ⟨zeroInfo.expTop, [], []⟩ ∧
      Thgn.getExports [] (imageOf zeroTables zeroInfo 0) none = none ∧
      ¬ (importLoop zeroSession zeroTables 0 zeroInfo.impBtm).Returns ⟨zeroInfo.impTop, []⟩ ∧
      Thgn.getImports [] (imageOf zeroTables zeroInfo 0) none = none := by
  have crooked (size : Word → Word) (none : size 0 = 0) (bottom : Word) (some : 0 < bottom) :
      ¬ Straight size bottom 0 := by
    intro straight
    refine straight 0 ⟨.refl, some⟩ (Relation.TransGen.single ⟨more_iff.mpr some, ?_⟩)
    change 0 = 0 + size 0
    rw [none]
    rfl
  have exported := crooked (exportSize zeroTables) (by decide) 32 (by decide)
  have imported := crooked (importSize zeroTables) (by decide) 36 (by decide)
  refine ⟨?_, ?_, ?_, ?_⟩
  · exact fun returns => exported (returns_iff_straight.mp ((export_returns_iff _).mp returns))
  · have endless : ¬ (Thgn.getExports [] (imageOf zeroTables zeroInfo 0) none).isSome = true :=
      (walk_isSome_iff (exportsTable_size zeroTables) zeroInfo.expTop).not.mpr exported
    exact Option.not_isSome_iff_eq_none.mp endless
  · exact fun returns => imported (returns_iff_straight.mp ((import_returns_iff _).mp returns))
  · have endless : ¬ (Thgn.getImports [] (imageOf zeroTables zeroInfo 0) none).isSome = true :=
      (walk_isSome_iff (importsTable_size zeroTables) zeroInfo.impTop).not.mpr imported
    exact Option.not_isSome_iff_eq_none.mp endless

end VitaTools.VitaModule
