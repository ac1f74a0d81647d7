import VitaTools.FagDec.Menu
import VitaTools.Library.Fuel

set_option autoImplicit false

namespace VitaTools.FagDec

open VitaTools.Library

def menuLinks : Links MenuEntry := ⟨MenuEntry.next, MenuEntry.prev⟩

structure Chained (heap : Entries) (menu : Menu) (chain : List Address) : Prop where
  linked : menuLinks.Linked heap chain
  first : menu.entryStart = chain[0]?
  last : menu.entryEnd = before chain chain.length
  count : menu.entryIndex = chain.length
  numbered : ∀ (i : Nat) a entry, chain[i]? = some a → heap a = some entry → entry.index = i
  selected : ∀ p, menu.entrySelected = some p → p ∈ chain

def enabledAt (heap : Entries) (p : Address) : Bool :=
  (heap p).elim false fun entry => decide (entry.type ≠ .disable)

def content (entry : MenuEntry) : MenuEntry :=
  { entry with index := 0, next := none, prev := none }

theorem enabledAt_congr {heap other : Entries} {p : Address}
    (same : (heap p).map content = (other p).map content) :
    enabledAt heap p = enabledAt other p := by
  rw [enabledAt, enabledAt]
  cases found : heap p with
  | none =>
      rw [found] at same
      rw [Option.map_eq_none_iff.mp same.symm]
  | some entry =>
      rw [found] at same
      obtain ⟨entry', found', contents⟩ := Option.map_eq_some_iff.mp same.symm
      have types : (content entry').type = (content entry).type := congrArg MenuEntry.type contents
      rw [found']
      change decide ((content entry).type ≠ _) = decide ((content entry').type ≠ _)
      rw [types]

theorem findAlong_gives {link : MenuEntry → Option Address} {heap : Entries} {startEntry : Address}
    {p : Address} {entry : MenuEntry} {rest : List Address} (found : heap p = some entry)
    (follows : Follows link heap (link entry) rest) (steps : Nat) :
    Gives (findAlong link heap startEntry steps p) (rest.length < steps)
      ((rest.find? (enabledAt heap)).getD startEntry) := by
  induction steps generalizing p entry rest with
  | zero =>
      exact Gives.of_none rfl (Nat.not_lt_zero _)
  | succ steps ih =>
      cases rest with
      | nil =>
          have ended : link entry = none := follows
          apply Gives.of_eq
          simp [findAlong, found, ended]
      | cons q rest =>
          obtain ⟨next, node, there, later⟩ := follows
          rw [List.find?_cons]
          cases enabled : enabledAt heap q with
          | true =>
              have usable : node.type ≠ .disable := by
                simpa [enabledAt, there] using enabled
              apply Gives.of_eq
              simp [findAlong, found, next, there, usable]
          | false =>
              have disabled : node.type = .disable := by
                simpa [enabledAt, there] using enabled
              have same : findAlong link heap startEntry (steps + 1) p =
                  findAlong link heap startEntry steps q := by
                simp [findAlong, found, next, there, disabled]
              rw [same]
              exact (ih there later).mono fun less => by
                rw [List.length_cons] at less
                omega

namespace Chained

variable {heap : Entries} {menu : Menu} {chain : List Address} {i : Nat} {p : Address}

theorem entry (chained : Chained heap menu chain) (place : chain[i]? = some p) :
    ∃ entry, heap p = some entry ∧ entry.index = i ∧ entry.next = chain[i + 1]? ∧
      entry.prev = before chain i := by
  obtain ⟨entry, found, next, prev⟩ := chained.linked.node i p place
  exact ⟨entry, found, chained.numbered i p entry place found, next, prev⟩

theorem position_unique (chained : Chained heap menu chain) {j : Nat} (place : chain[i]? = some p)
    (also : chain[j]? = some p) : i = j := by
  have inside := (List.getElem?_eq_some_iff.mp place).1
  exact (List.getElem?_inj inside chained.linked.nodup).mp (place.trans also.symm)

theorem menuFindNextEntry_up (chained : Chained heap menu chain) (place : chain[i]? = some p)
    (steps : Nat) : Gives (menuFindNextEntry steps heap p .up) (chain.length ≤ steps)
      (((chain.take i).reverse.find? (enabledAt heap)).getD p) := by
  obtain ⟨entry, found, -, -, prev⟩ := chained.entry place
  have inside := (List.getElem?_eq_some_iff.mp place).1
  have follows := chained.linked.follows_prev (i := i) (by omega)
  rw [← prev] at follows
  exact (findAlong_gives found follows steps).mono fun enough => by
    rw [List.length_reverse, List.length_take]
    omega

theorem menuFindNextEntry_down (chained : Chained heap menu chain) (place : chain[i]? = some p)
    (steps : Nat) : Gives (menuFindNextEntry steps heap p .down) (chain.length ≤ steps)
      (((chain.drop (i + 1)).find? (enabledAt heap)).getD p) := by
  obtain ⟨entry, found, -, next, -⟩ := chained.entry place
  have inside := (List.getElem?_eq_some_iff.mp place).1
  have follows := chained.linked.follows_next (i + 1)
  rw [← next] at follows
  exact (findAlong_gives found follows steps).mono fun enough => by
    rw [List.length_drop]
    omega

/-- What is selected behind the deletion of the entry at position `i`. -/
def selectedBehind (heap : Entries) (menu : Menu) (chain : List Address) (i : Nat) :
    Option Address :=
  if menu.entrySelected = chain[i]? then (chain.take i).reverse.find? (enabledAt heap)
  else menu.entrySelected

theorem reselect_gives (chained : Chained heap menu chain) (place : chain[i]? = some p)
    (steps : Nat) : Gives (reselect steps heap menu p i) (chain.length ≤ steps)
      { menu with entrySelected := selectedBehind heap menu chain i } := by
  rw [selectedBehind]
  cases selection : menu.entrySelected with
  | none =>
      apply Gives.of_eq
      rw [if_neg (by simp [place])]
      simp only [reselect, selection]
      cases menu
      cases selection
      rfl
  | some selected =>
      obtain ⟨j, at_j⟩ := List.mem_iff_getElem?.mp (chained.selected selected selection)
      obtain ⟨entry, found, number, -, -⟩ := chained.entry at_j
      by_cases own : j = i
      next =>
        subst own
        cases Option.some.inj (place.symm.trans at_j)
        rw [place, if_pos rfl]
        simp only [reselect, selection, found, number, bind, Option.bind_some, ne_eq,
          not_true_eq_false, if_false]
        have both (enough : chain.length ≤ steps) : chain.length ≤ steps ∧ chain.length ≤ steps :=
          ⟨enough, enough⟩
        refine ((chained.menuFindNextEntry_up at_j steps).bind ?_).mono both
        cases above : (chain.take j).reverse.find? (enabledAt heap) with
        | some q =>
            have member : q ∈ chain.take j :=
              List.mem_reverse.mp (List.mem_of_find?_eq_some above)
            obtain ⟨k, less, at_k⟩ := List.mem_take_iff_getElem.mp member
            obtain ⟨entry', found', number', -, -⟩ :=
              chained.entry (List.getElem?_eq_some_iff.mpr ⟨by omega, at_k⟩)
            have apart : ¬ entry'.index = j := by omega
            apply Gives.of_eq
            rw [Option.getD_some, found', Option.bind_some, if_pos apart]
            rfl
        | none =>
            rw [Option.getD_none, found, Option.bind_some, if_neg (not_not.mpr number)]
            refine ((chained.menuFindNextEntry_down at_j steps).bind ?_).mono both
            exact Gives.of_eq (by simp)
      next =>
        have other : some selected ≠ chain[i]? := fun same =>
          own (chained.position_unique at_j same.symm)
        apply Gives.of_eq
        rw [if_neg other]
        have apart : ¬ (j : Int) = i := by omega
        simp only [reselect, selection, found, number, bind, Option.bind_some, ne_eq, apart,
          not_false_eq_true, if_true]
        cases menu
        cases selection
        rfl

end Chained

def renumbered (entry : MenuEntry) : MenuEntry := { entry with index := entry.index - 1 }

def lower (heap : Entries) (rest : List Address) : Entries := fun a =>
  if a ∈ rest then (heap a).map renumbered else heap a

def relink (heap : Entries) (p : Option Address) (f : MenuEntry → MenuEntry) : Entries := fun a =>
  if p = some a then (heap a).map f else heap a

@[simp] theorem lower_nil (heap : Entries) : lower heap [] = heap := by
  funext a
  exact if_neg List.not_mem_nil

@[simp] theorem relink_none (heap : Entries) (f : MenuEntry → MenuEntry) :
    relink heap none f = heap := by
  funext a
  exact if_neg (Option.some_ne_none a).symm

theorem change_eq_relink {heap : Entries} {p : Address} {f : MenuEntry → MenuEntry}
    (allocated : (heap p).isSome = true) : change heap p f = some (relink heap (some p) f) := by
  obtain ⟨entry, found⟩ := Option.isSome_iff_exists.mp allocated
  rw [change, found, Option.map_some]
  congr 1
  funext a
  by_cases same : a = p
  · subst same
    rw [Function.update_self, relink, if_pos rfl, found, Option.map_some]
  · rw [Function.update_of_ne same, relink, if_neg fun own => same (Option.some.inj own).symm]

theorem unlinkPrev_eq {heap : Entries} {menu : Menu} {entry : MenuEntry}
    (allocated : ∀ p, entry.prev = some p → (heap p).isSome = true) :
    unlinkPrev heap menu entry = some (
      relink heap entry.prev fun e => { e with next := entry.next },
      { menu with entryStart := if entry.prev = none then entry.next else menu.entryStart }) := by
  rw [unlinkPrev]
  cases prev : entry.prev with
  | none => simp
  | some p =>
      dsimp only
      rw [change_eq_relink (allocated p prev)]
      simp

theorem unlinkNext_eq {heap : Entries} {menu : Menu} {entry : MenuEntry}
    (allocated : ∀ p, entry.next = some p → (heap p).isSome = true) :
    unlinkNext heap menu entry = some (
      relink heap entry.next fun e => { e with prev := entry.prev },
      { menu with entryEnd := if entry.next = none then entry.prev else menu.entryEnd }) := by
  rw [unlinkNext]
  cases next : entry.next with
  | none => simp
  | some p =>
      dsimp only
      rw [change_eq_relink (allocated p next)]
      simp

section

variable {steps : Nat} {index : Int} {heap : Entries} {menu : Menu}

theorem renumber_gives {p : Option Address} {rest : List Address}
    (follows : Follows MenuEntry.next heap p rest) (apart : rest.Nodup)
    (higher : ∀ a ∈ rest, ∀ entry, heap a = some entry → index < entry.index) (passes : Nat) :
    Gives (deleteLoop steps index passes heap menu p) (rest.length < passes)
      (lower heap rest, menu) := by
  induction rest generalizing heap p passes with
  | nil =>
      have ended : p = none := follows
      cases passes with
      | zero =>
          exact Gives.of_none rfl (Nat.not_lt_zero _)
      | succ passes =>
          apply Gives.of_eq
          rw [ended]
          simp [deleteLoop]
  | cons a rest ih =>
      obtain ⟨rfl, node, found, later⟩ := follows
      obtain ⟨new, apart⟩ := List.nodup_cons.mp apart
      have above := higher a List.mem_cons_self node found
      cases passes with
      | zero =>
          exact Gives.of_none rfl (Nat.not_lt_zero _)
      | succ passes =>
          have kept (b : Address) (member : b ∈ rest) :
              Function.update heap a (some (renumbered node)) b = heap b :=
            Function.update_of_ne (fun same => new (by rw [← same]; exact member)) _ _
          have next := ih (later.congr fun b member => congrArg _ (kept b member)) apart
            (fun b member entry has => higher b (List.mem_cons_of_mem a member) entry
              ((kept b member).symm.trans has)) passes
          have same : deleteLoop steps index (passes + 1) heap menu (some a) =
              deleteLoop steps index passes (Function.update heap a (some (renumbered node))) menu
                node.next := by
            have other : ¬ node.index = index := by omega
            simp [deleteLoop, found, other, above, change, renumbered]
          have lowered : lower (Function.update heap a (some (renumbered node))) rest =
              lower heap (a :: rest) := by
            funext b
            by_cases own : b = a
            · subst own
              rw [lower, if_neg new, Function.update_self, lower, if_pos List.mem_cons_self, found,
                Option.map_some]
            · simp [lower, own]
          rw [same, ← lowered]
          exact next.mono fun less => by
            rw [List.length_cons] at less
            omega

theorem skip_gives {p : Option Address} {front rest : List Address} {more : Prop} {bound : Nat}
    {result : Entries × Menu} (follows : Follows MenuEntry.next heap p (front ++ rest))
    (smaller : ∀ a ∈ front, ∀ entry, heap a = some entry → entry.index < index)
    (later : ∀ q passes, Follows MenuEntry.next heap q rest →
      Gives (deleteLoop steps index passes heap menu q) (more ∧ bound < passes) result)
    (passes : Nat) : Gives (deleteLoop steps index passes heap menu p)
      (more ∧ front.length + bound < passes) result := by
  induction front generalizing p passes with
  | nil =>
      rw [List.length_nil, Nat.zero_add]
      exact later p passes follows
  | cons a front ih =>
      obtain ⟨rfl, node, found, after⟩ := follows
      cases passes with
      | zero =>
          exact Gives.of_none rfl fun enough => absurd enough.2 (Nat.not_lt_zero _)
      | succ passes =>
          have less := smaller a List.mem_cons_self node found
          have other : ¬ node.index = index := by omega
          have under : ¬ index < node.index := by omega
          have same : deleteLoop steps index (passes + 1) heap menu (some a) =
              deleteLoop steps index passes heap menu node.next := by
            simp [deleteLoop, found, other, under]
          rw [same]
          have next := ih after (fun b member => smaller b (List.mem_cons_of_mem a member)) passes
          refine next.mono fun enough => ⟨enough.1, ?_⟩
          have sum := enough.2
          rw [List.length_cons] at sum
          omega

end

namespace Chained

variable {heap : Entries} {menu : Menu} {chain : List Address} {i : Nat} {p : Address}

-- The heap without the entry `p` at position `i`.
def unlinked (heap : Entries) (chain : List Address) (i : Nat) (p : Address) : Entries :=
  let above := relink heap (before chain i) fun entry => { entry with next := chain[i + 1]? }
  let both := relink above chain[i + 1]? fun entry => { entry with prev := before chain i }
  Function.update both p none

def behindDeletion (heap : Entries) (menu : Menu) (chain : List Address) (i : Nat) : Menu :=
  { menu with
    entrySelected := selectedBehind heap menu chain i
    entryStart := if before chain i = none then chain[i + 1]? else menu.entryStart
    entryEnd := if chain[i + 1]? = none then before chain i else menu.entryEnd
    entryIndex := menu.entryIndex - 1 }

theorem relink_isSome {p : Option Address} {f : MenuEntry → MenuEntry} {a : Address} :
    (relink heap p f a).isSome = (heap a).isSome := by
  rw [relink]
  split
  next => exact Option.isSome_map
  next => rfl

theorem before_allocated (chained : Chained heap menu chain) {q : Address}
    (place : before chain i = some q) : (heap q).isSome = true := by
  cases i with
  | zero => cases place
  | succ i =>
      obtain ⟨entry, found, -⟩ := chained.entry place
      exact Option.isSome_iff_exists.mpr ⟨entry, found⟩

theorem before_eq_iff (chained : Chained heap menu chain) {j : Nat} (at_j : chain[j]? = some p) :
    before chain i = some p ↔ j + 1 = i := by
  cases i with
  | zero => simp [before]
  | succ i =>
      rw [before, Nat.succ_inj]
      exact ⟨chained.position_unique at_j, fun same => same ▸ at_j⟩

theorem next_eq_iff (chained : Chained heap menu chain) {j : Nat} (at_j : chain[j]? = some p) :
    chain[i + 1]? = some p ↔ j = i + 1 :=
  ⟨chained.position_unique at_j, fun same => same ▸ at_j⟩

theorem unlinked_apply (chained : Chained heap menu chain) (place : chain[i]? = some p) {j : Nat}
    (other : j ≠ i) {a : Address} (at_j : chain[j]? = some a) {entry : MenuEntry}
    (found : heap a = some entry) :
    unlinked heap chain i p a = some { entry with
      next := if j + 1 = i then chain[i + 1]? else entry.next
      prev := if j = i + 1 then before chain i else entry.prev } := by
  have apart : a ≠ p := by
    rintro rfl
    exact other (chained.position_unique at_j place)
  rw [unlinked, Function.update_of_ne apart, relink, relink, found]
  simp only [chained.before_eq_iff at_j, chained.next_eq_iff at_j]
  by_cases above : j + 1 = i
  · have under : ¬ j = i + 1 := by omega
    simp [above, under]
  · by_cases under : j = i + 1
    · simp only [if_pos under, if_neg above, Option.map_some]
    · simp [above, under]

theorem mem_drop_iff (chained : Chained heap menu chain) {j : Nat} {a : Address}
    (at_j : chain[j]? = some a) : a ∈ chain.drop (i + 1) ↔ i < j := by
  obtain ⟨inside, same⟩ := List.getElem?_eq_some_iff.mp at_j
  rw [List.mem_drop_iff_getElem]
  constructor
  · rintro ⟨k, less, at_k⟩
    have later : chain[i + 1 + k]? = some a := List.getElem?_eq_some_iff.mpr ⟨by omega, at_k⟩
    have unique := chained.position_unique at_j later
    omega
  · intro more
    refine ⟨j - (i + 1), by omega, ?_⟩
    rw [← same]
    congr 1
    omega

theorem deleted_apply (chained : Chained heap menu chain) (place : chain[i]? = some p) {j : Nat}
    (other : j ≠ i) {a : Address} (at_j : chain[j]? = some a) {entry : MenuEntry}
    (found : heap a = some entry) :
    lower (unlinked heap chain i p) (chain.drop (i + 1)) a = some { entry with
      index := if i < j then entry.index - 1 else entry.index
      next := if j + 1 = i then chain[i + 1]? else entry.next
      prev := if j = i + 1 then before chain i else entry.prev } := by
  rw [lower, chained.unlinked_apply place other at_j found]
  simp only [chained.mem_drop_iff at_j]
  split
  next => rfl
  next => rfl

theorem delete_pass (chained : Chained heap menu chain) (place : chain[i]? = some p)
    (steps passes : Nat) : deleteLoop steps i (passes + 1) heap menu (some p) =
      (reselect steps heap menu p i).bind fun menu =>
        deleteLoop steps i passes (unlinked heap chain i p)
          { menu with
            entryStart := if before chain i = none then chain[i + 1]? else menu.entryStart
            entryEnd := if chain[i + 1]? = none then before chain i else menu.entryEnd
            entryIndex := menu.entryIndex - 1 } chain[i + 1]? := by
  obtain ⟨entry, found, number, next, prev⟩ := chained.entry place
  have first (q : Address) (at_q : entry.prev = some q) : (heap q).isSome = true :=
    chained.before_allocated (prev ▸ at_q)
  have second (q : Address) (at_q : entry.next = some q) :
      (relink heap entry.prev (fun e => { e with next := entry.next }) q).isSome = true := by
    rw [next] at at_q
    obtain ⟨other, there, -⟩ := chained.entry at_q
    rw [relink_isSome, there]
    rfl
  simp only [deleteLoop, found, number, bind, Option.bind_some, if_true, unlinkPrev_eq first,
    unlinkNext_eq second]
  simp only [next, prev]
  rfl

theorem menuDeleteEntry_gives (chained : Chained heap menu chain) (place : chain[i]? = some p)
    (steps : Nat) : Gives (menuDeleteEntry steps heap menu i) (chain.length < steps)
      (lower (unlinked heap chain i p) (chain.drop (i + 1)), behindDeletion heap menu chain i) := by
  obtain ⟨inside, at_i⟩ := List.getElem?_eq_some_iff.mp place
  have count := chained.count
  have parts : chain.take i ++ p :: chain.drop (i + 1) = chain := by
    rw [← at_i, List.getElem_cons_drop inside, List.take_append_drop]
  have follows : Follows MenuEntry.next heap menu.entryStart
      (chain.take i ++ p :: chain.drop (i + 1)) := by
    rw [parts, chained.first]
    exact chained.linked.follows_next 0
  rw [menuDeleteEntry, if_neg (by omega)]
  have whole : Gives (deleteLoop steps i steps heap menu menu.entryStart)
      (chain.length ≤ steps ∧ (chain.take i).length + ((chain.drop (i + 1)).length + 1) < steps)
      (lower (unlinked heap chain i p) (chain.drop (i + 1)), behindDeletion heap menu chain i) := by
    apply skip_gives follows
    · intro a member entry found
      obtain ⟨j, less, at_j⟩ := List.mem_take_iff_getElem.mp member
      have place := List.getElem?_eq_some_iff.mpr ⟨by omega, at_j⟩
      have number := chained.numbered j a entry place found
      omega
    · intro q passes later
      obtain ⟨rfl, -⟩ := later
      cases passes with
      | zero =>
          exact Gives.of_none rfl fun enough => absurd enough.2 (Nat.not_lt_zero _)
      | succ passes =>
          rw [chained.delete_pass place]
          refine ((chained.reselect_gives place steps).bind (renumber_gives ?_ ?_ ?_ passes)).mono
            fun enough => ⟨enough.1, by omega⟩
          · refine (chained.linked.follows_next (i + 1)).congr fun a member => ?_
            obtain ⟨j, less, at_j⟩ := List.mem_drop_iff_getElem.mp member
            have place' : chain[i + 1 + j]? = some a :=
              List.getElem?_eq_some_iff.mpr ⟨by omega, at_j⟩
            obtain ⟨old, was, -⟩ := chained.entry place'
            rw [chained.unlinked_apply place (by omega) place' was, was]
            simp only [Option.map_some, menuLinks]
            rw [if_neg (by omega)]
          · exact chained.linked.nodup.sublist (List.drop_sublist _ _)
          · intro a member entry found
            obtain ⟨j, less, at_j⟩ := List.mem_drop_iff_getElem.mp member
            have place' : chain[i + 1 + j]? = some a :=
              List.getElem?_eq_some_iff.mpr ⟨by omega, at_j⟩
            obtain ⟨old, was, number, -, -⟩ := chained.entry place'
            have now := chained.unlinked_apply place (by omega) place' was
            cases Option.some.inj (found.symm.trans now)
            dsimp only
            omega
  refine whole.mono fun enough => ⟨Nat.le_of_lt enough, ?_⟩
  rw [List.length_take, List.length_drop]
  omega

theorem menuDeleteEntry_missing (chained : Chained heap menu chain) {index : Nat}
    (missing : chain.length ≤ index) (steps : Nat) :
    Gives (menuDeleteEntry steps heap menu index) (chain.length < steps) (heap, menu) := by
  have count := chained.count
  rw [menuDeleteEntry]
  split
  next => exact Gives.of_eq rfl
  next =>
    have follows : Follows MenuEntry.next heap menu.entryStart (chain ++ []) := by
      rw [List.append_nil, chained.first]
      exact chained.linked.follows_next 0
    have whole : Gives (deleteLoop steps index steps heap menu menu.entryStart)
        (True ∧ chain.length + 0 < steps) (heap, menu) := by
      apply skip_gives follows
      · intro a member entry found
        obtain ⟨j, at_j⟩ := List.mem_iff_getElem?.mp member
        have number := chained.numbered j a entry at_j found
        have inside := (List.getElem?_eq_some_iff.mp at_j).1
        omega
      · intro q passes ended
        have nothing : q = none := ended
        cases passes with
        | zero =>
            exact Gives.of_none rfl fun enough => absurd enough.2 (Nat.not_lt_zero _)
        | succ passes =>
            apply Gives.of_eq
            rw [nothing, deleteLoop]
    exact whole.mono fun enough => ⟨trivial, enough⟩

theorem eraseIdx_position {j : Nat} {a : Address} (at_j : (chain.eraseIdx i)[j]? = some a) :
    chain[if j < i then j else j + 1]? = some a := by
  rw [List.getElem?_eraseIdx] at at_j
  split at at_j
  next less => rwa [if_pos less]
  next more => rwa [if_neg more]

theorem deleted_linked (chained : Chained heap menu chain) (place : chain[i]? = some p) :
    menuLinks.Linked (lower (unlinked heap chain i p) (chain.drop (i + 1))) (chain.eraseIdx i) := by
  apply chained.linked.erase
  intro j a entry other at_j found
  exact ⟨_, chained.deleted_apply place other at_j found, rfl, rfl⟩

theorem content_kept (chained : Chained heap menu chain) (place : chain[i]? = some p) {a : Address}
    (member : a ∈ chain.eraseIdx i) :
    (lower (unlinked heap chain i p) (chain.drop (i + 1)) a).map content =
      (heap a).map content := by
  obtain ⟨j, at_j⟩ := List.mem_iff_getElem?.mp member
  have place' := eraseIdx_position at_j
  obtain ⟨entry, found, -⟩ := chained.entry place'
  rw [chained.deleted_apply place (by split <;> omega) place' found, found]
  rfl

theorem selectedBehind_mem (chained : Chained heap menu chain) (place : chain[i]? = some p)
    {selected : Address} (selection : selectedBehind heap menu chain i = some selected) :
    selected ∈ chain.eraseIdx i := by
  rw [selectedBehind] at selection
  split at selection
  next own =>
    have member := List.mem_reverse.mp (List.mem_of_find?_eq_some selection)
    rw [List.eraseIdx_eq_take_drop_succ]
    exact List.mem_append_left _ member
  next other =>
    obtain ⟨j, at_j⟩ := List.mem_iff_getElem?.mp (chained.selected selected selection)
    refine List.mem_eraseIdx_iff_getElem?.mpr ⟨j, ?_, at_j⟩
    rintro rfl
    exact other (selection.trans at_j.symm)

theorem eraseIdx_first (inside : i < chain.length) (first : menu.entryStart = chain[0]?) :
    (behindDeletion heap menu chain i).entryStart = (chain.eraseIdx i)[0]? := by
  rw [List.getElem?_eraseIdx, behindDeletion]
  dsimp only
  cases i with
  | zero => rfl
  | succ i =>
      rw [before, List.getElem?_eq_getElem (by omega), if_neg (Option.some_ne_none _), first]
      rfl

theorem eraseIdx_last (inside : i < chain.length)
    (last : menu.entryEnd = before chain chain.length) :
    (behindDeletion heap menu chain i).entryEnd =
      before (chain.eraseIdx i) (chain.eraseIdx i).length := by
  obtain ⟨count, long⟩ : ∃ n, chain.length = n + 1 := ⟨chain.length - 1, by omega⟩
  rw [List.length_eraseIdx_of_lt inside, long, Nat.add_sub_cancel, behindDeletion]
  dsimp only
  by_cases own : i = count
  next =>
    subst own
    rw [List.getElem?_eq_none (by omega), if_pos rfl]
    cases i with
    | zero => rfl
    | succ i => rw [before, before, List.getElem?_eraseIdx, if_pos (by omega)]
  next =>
    rw [List.getElem?_eq_getElem (by omega), if_neg (Option.some_ne_none _), last, long]
    obtain ⟨k, rfl⟩ : ∃ k, count = k + 1 := ⟨count - 1, by omega⟩
    rw [before, before, List.getElem?_eraseIdx, if_neg (by omega)]

theorem deleted (chained : Chained heap menu chain) (place : chain[i]? = some p) :
    Chained (lower (unlinked heap chain i p) (chain.drop (i + 1)))
      (behindDeletion heap menu chain i) (chain.eraseIdx i) := by
  have inside := (List.getElem?_eq_some_iff.mp place).1
  constructor
  case linked => exact chained.deleted_linked place
  case first => exact eraseIdx_first inside chained.first
  case last => exact eraseIdx_last inside chained.last
  case count =>
    rw [List.length_eraseIdx_of_lt inside]
    have count := chained.count
    simp only [behindDeletion]
    omega
  case numbered =>
    intro j a entry at_j found
    have place' := eraseIdx_position at_j
    obtain ⟨old, was, number, -⟩ := chained.entry place'
    have now := chained.deleted_apply place (by split <;> omega) place' was
    cases Option.some.inj (found.symm.trans now)
    dsimp only
    rw [number]
    split
    next less => rw [if_neg (by omega)]
    next more =>
      rw [if_pos (by omega)]
      omega
  case selected => exact fun selected => chained.selectedBehind_mem place

end Chained

namespace Chained

variable {heap : Entries} {menu : Menu} {chain : List Address} {fresh : Address}
variable {drawType : MenuDrawType} {text : List (BitVec 8)} {clickCb : Option Address}

def newEntry (menu : Menu) (drawType : MenuDrawType) (text : List (BitVec 8))
    (clickCb : Option Address) : MenuEntry where
  drawType := drawType
  type := if drawType ≠ .normal then .disable else .none
  active := false
  index := menu.entryIndex
  text := strncpy 128 text
  clickCb := clickCb
  next := none
  prev := menu.entryEnd

def withEntry (heap : Entries) (menu : Menu) (fresh : Address) (entry : MenuEntry) : Entries :=
  relink (Function.update heap fresh (some entry)) menu.entryEnd fun last =>
    { last with next := some fresh }

def behindAddition (menu : Menu) (fresh : Address) (drawType : MenuDrawType) : Menu :=
  { menu with
    entryIndex := menu.entryIndex + 1
    entryEnd := some fresh
    entryStart := if menu.entryEnd = none then some fresh else menu.entryStart
    entrySelected := if drawType = .normal ∧ menu.entrySelected = none then some fresh
      else menu.entrySelected }

theorem not_mem_fresh (chained : Chained heap menu chain) (new : heap fresh = none) :
    fresh ∉ chain := by
  intro member
  obtain ⟨j, at_j⟩ := List.mem_iff_getElem?.mp member
  obtain ⟨entry, found, -⟩ := chained.entry at_j
  exact absurd (new.symm.trans found) (Option.some_ne_none entry).symm

theorem menuAddEntry_eq (chained : Chained heap menu chain) (new : heap fresh = none) :
    menuAddEntry heap menu fresh drawType text clickCb =
      some (withEntry heap menu fresh (newEntry menu drawType text clickCb),
        behindAddition menu fresh drawType) := by
  cases last : menu.entryEnd with
  | none =>
      have start : menu.entryStart = none := by
        have ended := last
        rw [chained.last] at ended
        rw [chained.first]
        cases chain with
        | nil => rfl
        | cons a rest =>
            rw [List.length_cons, before, List.getElem?_eq_getElem (by simp)] at ended
            cases ended
      simp only [menuAddEntry, last, start, bind, Option.bind_some, if_true, withEntry,
        relink_none, newEntry, behindAddition]
      by_cases selects : drawType = .normal ∧ menu.entrySelected = none
      · simp only [if_pos selects]
        rfl
      · simp only [if_neg selects]
        rfl
  | some p =>
      have allocated : (heap p).isSome = true :=
        chained.before_allocated (chained.last.symm.trans last)
      have apart : p ≠ fresh := by
        rintro rfl
        rw [new] at allocated
        cases allocated
      simp only [menuAddEntry, last, bind, withEntry, newEntry, behindAddition]
      rw [change_eq_relink (by rw [Function.update_of_ne apart]; exact allocated)]
      simp only [Option.map_some, Option.bind_some]
      by_cases selects : drawType = .normal ∧ menu.entrySelected = none
      · simp only [if_pos selects]
        rfl
      · simp only [if_neg selects]
        rfl

theorem withEntry_fresh (chained : Chained heap menu chain) (new : heap fresh = none)
    (entry : MenuEntry) : withEntry heap menu fresh entry fresh = some entry := by
  rw [withEntry, relink, if_neg, Function.update_self]
  intro last
  have allocated := chained.before_allocated (chained.last.symm.trans last)
  rw [new] at allocated
  cases allocated

theorem withEntry_apply (chained : Chained heap menu chain) (new : heap fresh = none)
    {new_entry entry : MenuEntry} {j : Nat} {a : Address} (at_j : chain[j]? = some a)
    (found : heap a = some entry) :
    withEntry heap menu fresh new_entry a = some { entry with
      next := if j + 1 = chain.length then some fresh else entry.next } := by
  have apart : a ≠ fresh := by
    rintro rfl
    exact chained.not_mem_fresh new (List.mem_iff_getElem?.mpr ⟨j, at_j⟩)
  rw [withEntry, relink, Function.update_of_ne apart, found, chained.last]
  simp only [chained.before_eq_iff at_j]
  split <;> rfl

theorem added (chained : Chained heap menu chain) (new : heap fresh = none) :
    Chained (withEntry heap menu fresh (newEntry menu drawType text clickCb))
      (behindAddition menu fresh drawType) (chain ++ [fresh]) := by
  have count := chained.count
  constructor
  case linked =>
    apply chained.linked.append (chained.not_mem_fresh new) (chained.withEntry_fresh new _) rfl
    · exact chained.last.trans (before_length chain)
    · intro j a entry at_j found
      exact ⟨_, chained.withEntry_apply new at_j found, rfl, rfl⟩
  case first =>
    rw [behindAddition, chained.last, chained.first]
    cases chain with
    | nil => rfl
    | cons a rest =>
        rw [List.length_cons, before, List.getElem?_eq_getElem (by simp)]
        rfl
  case last =>
    rw [List.length_append, List.length_singleton, before, List.getElem?_concat_length]
    rfl
  case count =>
    rw [List.length_append, List.length_singleton, behindAddition]
    dsimp only
    omega
  case numbered =>
    intro j a entry at_j found
    by_cases inside : j < chain.length
    next =>
      rw [List.getElem?_append_left inside] at at_j
      obtain ⟨old, was, number, -⟩ := chained.entry at_j
      cases Option.some.inj (found.symm.trans (chained.withEntry_apply new at_j was))
      exact number
    next =>
      have last : j = chain.length := by
        have few := (List.getElem?_eq_some_iff.mp at_j).1
        rw [List.length_append, List.length_singleton] at few
        omega
      subst last
      rw [List.getElem?_concat_length] at at_j
      cases at_j
      cases Option.some.inj (found.symm.trans (chained.withEntry_fresh new _))
      exact count
  case selected =>
    intro p selection
    simp only [behindAddition] at selection
    split at selection
    next =>
      cases selection
      exact List.mem_append_right _ (List.mem_singleton_self fresh)
    next => exact List.mem_append_left _ (chained.selected p selection)

end Chained

theorem relink_type {heap : Entries} {entry a : Address} {type : MenuType} {node : MenuEntry}
    (found : heap a = some node) : relink heap (some entry) (fun e => { e with type }) a =
      some { node with type := if entry = a then type else node.type } := by
  rw [relink, found]
  simp only [Option.some.injEq]
  split <;> rfl

namespace Chained

variable {heap : Entries} {menu : Menu} {chain : List Address}

theorem typed (chained : Chained heap menu chain) (entry : Address) (type : MenuType) :
    Chained (relink heap (some entry) fun e => { e with type }) menu chain := by
  refine { chained with
    linked := chained.linked.congr fun a _ node found => ⟨_, relink_type found, rfl, rfl⟩
    numbered := fun i a node at_i found => ?_ }
  obtain ⟨old, was, number, -⟩ := chained.entry at_i
  cases Option.some.inj (found.symm.trans (relink_type was))
  exact number

theorem find_or {list : List Address} {p : Address} :
    (list.find? (enabledAt heap)).getD p ∈ list ∧
        enabledAt heap ((list.find? (enabledAt heap)).getD p) = true ∨
      (list.find? (enabledAt heap)).getD p = p := by
  cases hit : list.find? (enabledAt heap) with
  | none => exact .inr rfl
  | some q => exact .inl ⟨List.mem_of_find?_eq_some hit, List.find?_some hit⟩

theorem menuFindNextEntry_or (chained : Chained heap menu chain) {p q : Address}
    (member : p ∈ chain) {steps : Nat} {dir : MenuDir}
    (found : menuFindNextEntry steps heap p dir = some q) :
    q ∈ chain ∧ enabledAt heap q = true ∨ q = p := by
  obtain ⟨i, at_i⟩ := List.mem_iff_getElem?.mp member
  cases dir with
  | up =>
      cases (chained.menuFindNextEntry_up at_i steps).only q found
      exact find_or.imp_left fun both =>
        ⟨List.mem_of_mem_take (List.mem_reverse.mp both.1), both.2⟩
  | down =>
      cases (chained.menuFindNextEntry_down at_i steps).only q found
      exact find_or.imp_left fun both => ⟨List.mem_of_mem_drop both.1, both.2⟩

end Chained

def MenuAction.chainBehind (chain : List Address) : MenuAction → List Address
  | .add fresh _ _ _ => chain ++ [fresh]
  | .delete _ index => chain.eraseIdx index.toNat
  | .move _ _ => chain
  | .setType _ _ => chain

variable {s t : MenuState} {action : MenuAction} {chain : List Address}

theorem step_chained (chained : Chained s.heap s.menu chain) (proper : action.Proper s)
    (step : menus.step s action = some t) :
    Chained t.heap t.menu (action.chainBehind chain) := by
  cases action with
  | add fresh drawType text clickCb =>
      simp only [menus, chained.menuAddEntry_eq proper, Option.map_some] at step
      cases step
      exact chained.added proper
  | delete steps index =>
      obtain ⟨r, done, rfl⟩ := Option.map_eq_some_iff.mp step
      have natural : (index.toNat : Int) = index := Int.toNat_of_nonneg proper
      rw [← natural] at done
      by_cases inside : index.toNat < chain.length
      next =>
        have place := List.getElem?_eq_getElem inside
        rw [(chained.menuDeleteEntry_gives place steps).only r done]
        exact chained.deleted place
      next =>
        rw [(chained.menuDeleteEntry_missing (by omega) steps).only r done,
          MenuAction.chainBehind, List.eraseIdx_of_length_le (by omega)]
        exact chained
  | move steps dir =>
      obtain ⟨selected, selection, rest⟩ := Option.bind_eq_some_iff.mp step
      obtain ⟨next, found, done⟩ := Option.bind_eq_some_iff.mp rest
      cases done
      have member := chained.selected selected selection
      refine { chained with selected := fun p same => ?_ }
      cases same
      rcases chained.menuFindNextEntry_or member found with ⟨inside, -⟩ | rfl
      · exact inside
      · exact member
  | setType entry type =>
      obtain ⟨heap, changed, rfl⟩ := Option.map_eq_some_iff.mp step
      have allocated : (s.heap entry).isSome = true := by
        rw [change] at changed
        cases found : s.heap entry with
        | none => simp [found] at changed
        | some node => rfl
      rw [change_eq_relink allocated] at changed
      cases changed
      exact chained.typed entry type

theorem created (heap : Entries) (pane : MenuPaneSide) : Chained heap (menuCreate pane) [] where
  linked := Links.Linked.nil
  first := rfl
  last := rfl
  count := rfl
  numbered := fun _ _ _ found => by cases found
  selected := fun _ found => by cases found

theorem reached_chained {heap : Entries} {pane : MenuPaneSide} (reached : MenuReached heap pane s) :
    ∃ chain, Chained s.heap s.menu chain := by
  apply reached.invariant fun s => ∃ chain, Chained s.heap s.menu chain
  · exact ⟨[], created heap pane⟩
  · rintro s action t ⟨chain, chained⟩ proper step
    exact ⟨_, step_chained chained proper step⟩

/-- The menu's list in both directions, its numbers and its selection. -/
structure MenuState.WellLinked (s : MenuState) (chain : List Address) : Prop where
  forwards : Follows MenuEntry.next s.heap s.menu.entryStart chain
  backwards : Follows MenuEntry.prev s.heap s.menu.entryEnd chain.reverse
  distinct : chain.Nodup
  count : s.menu.entryIndex = chain.length
  numbered : ∀ (i : Nat) a, chain[i]? = some a → (s.heap a).map MenuEntry.index = some (i : Int)
  selected : s.menu.entrySelected = none ∨ ∃ p ∈ chain, s.menu.entrySelected = some p

theorem Chained.wellLinked (chained : Chained s.heap s.menu chain) : s.WellLinked chain where
  forwards := by
    rw [chained.first]
    exact chained.linked.follows_next 0
  backwards := by
    have whole := chained.linked.follows_prev (Nat.le_refl chain.length)
    rwa [List.take_length, ← chained.last] at whole
  distinct := chained.linked.nodup
  count := chained.count
  numbered := by
    intro i a at_i
    obtain ⟨entry, found, number, -⟩ := chained.entry at_i
    rw [found, Option.map_some, number]
  selected := by
    cases selection : s.menu.entrySelected with
    | none => exact .inl rfl
    | some p => exact .inr ⟨p, chained.selected p selection, rfl⟩

theorem delete_step (chained : Chained s.heap s.menu chain) (index : Nat) :
    ∃ t, (∀ steps, Gives (menus.step s (.delete steps index)) (chain.length < steps) t) ∧
      Chained t.heap t.menu (chain.eraseIdx index) ∧
      (∀ a ∈ chain.eraseIdx index, (t.heap a).map content = (s.heap a).map content) ∧
      t.menu.entrySelected = if index < chain.length then
        Chained.selectedBehind s.heap s.menu chain index else s.menu.entrySelected := by
  by_cases inside : index < chain.length
  next =>
    have place := List.getElem?_eq_getElem inside
    refine ⟨⟨lower (Chained.unlinked s.heap chain index chain[index]) (chain.drop (index + 1)),
      Chained.behindDeletion s.heap s.menu chain index⟩, fun steps => ?_, chained.deleted place,
      fun a => chained.content_kept place, (if_pos inside).symm⟩
    have gives := chained.menuDeleteEntry_gives place steps
    refine ⟨fun r step => ?_, fun enough => ?_⟩
    · obtain ⟨done, found, rfl⟩ := Option.map_eq_some_iff.mp step
      rw [gives.only done found]
    · exact Option.map_eq_some_iff.mpr ⟨_, gives.some enough, rfl⟩
  next =>
    rw [List.eraseIdx_of_length_le (by omega)]
    refine ⟨s, fun steps => ?_, chained, fun _ _ => rfl, (if_neg inside).symm⟩
    have gives := chained.menuDeleteEntry_missing (Nat.le_of_not_lt inside) steps
    refine ⟨fun r step => ?_, fun enough => ?_⟩
    · obtain ⟨done, found, rfl⟩ := Option.map_eq_some_iff.mp step
      rw [gives.only done found]
    · exact Option.map_eq_some_iff.mpr ⟨_, gives.some enough, rfl⟩

/-- The menu stays a list in both directions, and a deletion takes out the entry of its index and
no other. -/
theorem menu_wellLinked {heap : Entries} {pane : MenuPaneSide} (reached : MenuReached heap pane s) :
    ∃ chain, s.WellLinked chain ∧ ∀ index : Nat, ∃ t : MenuState,
      (∀ steps, chain.length < steps → menus.step s (.delete steps index) = some t) ∧
      t.WellLinked (chain.eraseIdx index) ∧
      ∀ a ∈ chain.eraseIdx index, (t.heap a).map content = (s.heap a).map content := by
  obtain ⟨chain, chained⟩ := reached_chained reached
  refine ⟨chain, chained.wellLinked, fun index => ?_⟩
  obtain ⟨t, gives, behind, kept, -⟩ := delete_step chained index
  exact ⟨t, fun steps => (gives steps).some, behind.wellLinked, kept⟩

def withNormal (s : MenuState) (fresh : Address) : MenuState :=
  (menus.step s (.add fresh .normal [] none)).getD s

def twoEntries : MenuState := withNormal (withNormal ⟨fun _ => none, menuCreate .left⟩ 1) 2

theorem menu_wellLinked_two : ∃ chain, twoEntries.WellLinked chain := by
  have reached : MenuReached (fun _ => none) .left twoEntries :=
    .next (.add 2 .normal [] none) (.next (.add 1 .normal [] none) .start rfl rfl) rfl rfl
  obtain ⟨chain, linked, -⟩ := menu_wellLinked reached
  exact ⟨chain, linked⟩

def MenuAction.Enabling : MenuAction → Prop
  | .setType _ type => type ≠ .disable
  | _ => True

abbrev MenuEnabled (heap : Entries) (pane : MenuPaneSide) (s : MenuState) : Prop :=
  menus.Reachable (fun s action => action.Proper s ∧ action.Enabling) ⟨heap, menuCreate pane⟩ s

theorem step_enabled (chained : Chained s.heap s.menu chain)
    (enabled : ∀ p, s.menu.entrySelected = some p → enabledAt s.heap p = true)
    (proper : action.Proper s) (enabling : action.Enabling) (step : menus.step s action = some t) :
    ∀ p, t.menu.entrySelected = some p → enabledAt t.heap p = true := by
  intro p selection
  cases action with
  | add fresh drawType text clickCb =>
      simp only [menus, chained.menuAddEntry_eq proper, Option.map_some] at step
      cases step
      simp only [Chained.behindAddition] at selection
      split at selection
      next selects =>
        cases selection
        dsimp only
        rw [enabledAt, chained.withEntry_fresh proper]
        simp [Chained.newEntry, selects.1]
      next =>
        obtain ⟨j, at_j⟩ := List.mem_iff_getElem?.mp (chained.selected p selection)
        obtain ⟨entry, found, -⟩ := chained.entry at_j
        rw [← enabled p selection]
        apply enabledAt_congr
        dsimp only
        rw [chained.withEntry_apply proper at_j found, found]
        rfl
  | delete steps index =>
      have natural : (index.toNat : Int) = index := Int.toNat_of_nonneg proper
      rw [← natural] at step
      obtain ⟨behind, gives, later, kept, selected⟩ := delete_step chained index.toNat
      cases (gives steps).only t step
      rw [enabledAt_congr (kept p (later.selected p selection))]
      rw [selected] at selection
      split at selection
      next =>
        rw [Chained.selectedBehind] at selection
        split at selection
        next => exact List.find?_some selection
        next => exact enabled p selection
      next => exact enabled p selection
  | move steps dir =>
      obtain ⟨selected, before, rest⟩ := Option.bind_eq_some_iff.mp step
      obtain ⟨next, found, done⟩ := Option.bind_eq_some_iff.mp rest
      cases done
      cases selection
      rcases chained.menuFindNextEntry_or (chained.selected selected before) found with
        ⟨-, usable⟩ | rfl
      · exact usable
      · exact enabled _ before
  | setType entry type =>
      obtain ⟨heap, changed, rfl⟩ := Option.map_eq_some_iff.mp step
      have usable := enabled p selection
      obtain ⟨old, was, rfl⟩ := Option.map_eq_some_iff.mp changed
      simp only [enabledAt] at usable ⊢
      by_cases own : p = entry
      next =>
        subst own
        rw [Function.update_self]
        exact decide_eq_true enabling
      next =>
        rw [Function.update_of_ne own]
        exact usable

theorem enabled_chained {heap : Entries} {pane : MenuPaneSide} (reached : MenuEnabled heap pane s) :
    ∃ chain, Chained s.heap s.menu chain ∧
      ∀ p, s.menu.entrySelected = some p → enabledAt s.heap p = true := by
  apply reached.invariant fun s => ∃ chain, Chained s.heap s.menu chain ∧
    ∀ p, s.menu.entrySelected = some p → enabledAt s.heap p = true
  · exact ⟨[], created heap pane, fun p selection => by cases selection⟩
  · rintro s action t ⟨chain, chained, enabled⟩ ⟨proper, enabling⟩ step
    exact ⟨_, step_chained chained proper step,
      step_enabled chained enabled proper enabling step⟩

/-- If an entry for the pad remains, one is selected, and the same as before unless that was the
one deleted. -/
def Usable (s t : MenuState) (chain : List Address) (index : Nat) : Prop :=
  (∃ p ∈ chain.eraseIdx index, enabledAt t.heap p = true) →
    ∃ p ∈ chain.eraseIdx index, t.menu.entrySelected = some p ∧ enabledAt t.heap p = true ∧
      (s.menu.entrySelected ≠ chain[index]? → t.menu.entrySelected = s.menu.entrySelected)

/-- The menu stays usable exactly when the deleted entry was not selected, has one for the pad above
it, or leaves none. -/
theorem usable_iff {heap : Entries} {pane : MenuPaneSide} (reached : MenuEnabled heap pane s)
    (selection : s.menu.entrySelected ≠ none) (linked : s.WellLinked chain) {index steps : Nat}
    (step : menus.step s (.delete steps index) = some t) :
    Usable s t chain index ↔ s.menu.entrySelected ≠ chain[index]? ∨
      (∃ p ∈ chain.take index, enabledAt s.heap p = true) ∨
      ∀ p ∈ chain.drop (index + 1), enabledAt s.heap p = false := by
  obtain ⟨chain', chained, enabled⟩ := enabled_chained reached
  cases linked.forwards.unique chained.wellLinked.forwards
  obtain ⟨behind, gives, later, kept, selected⟩ := delete_step chained index
  cases (gives steps).only t step
  have same (p : Address) (member : p ∈ chain.eraseIdx index) :
      enabledAt t.heap p = enabledAt s.heap p := enabledAt_congr (kept p member)
  have parts : chain.eraseIdx index = chain.take index ++ chain.drop (index + 1) :=
    List.eraseIdx_eq_take_drop_succ chain index
  by_cases own : s.menu.entrySelected = chain[index]?
  next =>
    have inside : index < chain.length := by
      by_contra outside
      rw [List.getElem?_eq_none (by omega)] at own
      exact selection own
    rw [if_pos inside, Chained.selectedBehind, if_pos own] at selected
    constructor
    next =>
      intro usable
      right
      by_contra neither
      obtain ⟨none_above, some_below⟩ := not_or.mp neither
      push Not at some_below
      obtain ⟨q, below, can⟩ := some_below
      have member : q ∈ chain.eraseIdx index := parts ▸ List.mem_append_right _ below
      obtain ⟨p, -, now, -⟩ := usable ⟨q, member, by rw [same q member]; simpa using can⟩
      rw [selected] at now
      have above := List.mem_reverse.mp (List.mem_of_find?_eq_some now)
      exact none_above ⟨p, above, List.find?_some now⟩
    next =>
      intro answer remaining
      have above : ∃ p ∈ chain.take index, enabledAt s.heap p = true := by
        rcases answer with other | above | none_below
        · exact absurd own other
        · exact above
        · obtain ⟨q, member, can⟩ := remaining
          rw [same q member] at can
          rcases List.mem_append.mp (parts ▸ member) with above | below
          · exact ⟨q, above, can⟩
          · exact absurd can (by rw [none_below q below]; decide)
      obtain ⟨q, above, can⟩ := above
      have found : ((chain.take index).reverse.find? (enabledAt s.heap)).isSome = true :=
        List.find?_isSome.mpr ⟨q, List.mem_reverse.mpr above, can⟩
      obtain ⟨p, hit⟩ := Option.isSome_iff_exists.mp found
      have now : t.menu.entrySelected = some p := selected.trans hit
      have member := later.selected p now
      refine ⟨p, member, now, ?_, fun other => absurd own other⟩
      rw [same p member]
      exact List.find?_some hit
  next =>
    refine iff_of_true (fun _ => ?_) (.inl own)
    have now : t.menu.entrySelected = s.menu.entrySelected := by
      rw [selected, Chained.selectedBehind, if_neg own, ite_self]
    obtain ⟨p, before⟩ := Option.ne_none_iff_exists'.mp selection
    have member := later.selected p (now.trans before)
    refine ⟨p, member, now.trans before, ?_, fun _ => now⟩
    rw [same p member]
    exact enabled p before

theorem twoEntries_reached : MenuEnabled (fun _ => none) .left twoEntries :=
  .next (.add 2 .normal [] none)
    (.next (.add 1 .normal [] none) .start ⟨rfl, trivial⟩ rfl) ⟨rfl, trivial⟩ rfl

theorem twoEntries_linked : twoEntries.WellLinked [1, 2] := by
  obtain ⟨chain, chained, -⟩ := enabled_chained twoEntries_reached
  have forwards : Follows MenuEntry.next twoEntries.heap twoEntries.menu.entryStart [1, 2] :=
    ⟨rfl, _, rfl, rfl, _, rfl, rfl⟩
  cases forwards.unique chained.wellLinked.forwards
  exact chained.wellLinked

def without (index : Nat) : MenuState := (menus.step twoEntries (.delete 3 index)).getD twoEntries

theorem usable_lower : Usable twoEntries (without 1) [1, 2] 1 := by
  have step : menus.step twoEntries (.delete 3 ((1 : Nat) : Int)) = some (without 1) := rfl
  have selection : twoEntries.menu.entrySelected ≠ none := by decide
  exact (usable_iff twoEntries_reached selection twoEntries_linked step).mpr (.inl (by decide))

/-- Behind the deletion of the upper entry nothing is selected, although the lower one could be. -/
theorem upper_deleted : MenuEnabled (fun _ => none) .left twoEntries ∧
    twoEntries.WellLinked [1, 2] ∧ twoEntries.menu.entrySelected = some 1 ∧
      menus.step twoEntries (.delete 3 0) = some (without 0) ∧
      ¬ Usable twoEntries (without 0) [1, 2] 0 := by
  refine ⟨twoEntries_reached, twoEntries_linked, rfl, rfl, fun usable => ?_⟩
  have remains : ∃ p ∈ [1, 2].eraseIdx 0, enabledAt (without 0).heap p = true :=
    ⟨2, by decide, rfl⟩
  obtain ⟨p, -, selected, -⟩ := usable remains
  cases selected

end VitaTools.FagDec
