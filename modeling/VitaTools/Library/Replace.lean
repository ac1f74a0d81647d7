import Mathlib.Data.List.Basic

set_option autoImplicit false

namespace VitaTools.Library

universe u

variable {α : Type u} [DecidableEq α]

/-- Replace what is not part of an occurrence being skipped, `skip` elements of which are
left. -/
def replaceFrom (search replacement : List α) : Nat → List α → List α
  | _, [] => []
  | skip + 1, _ :: rest => replaceFrom search replacement skip rest
  | 0, x :: rest =>
      if search.isPrefixOf (x :: rest) then
        replacement ++ replaceFrom search replacement (search.length - 1) rest
      else x :: replaceFrom search replacement 0 rest

def replaceAll (subject search replacement : List α) : List α :=
  replaceFrom search replacement 0 subject

def occurs (search : List α) : List α → Bool
  | [] => search.isEmpty
  | x :: rest => search.isPrefixOf (x :: rest) || occurs search rest

variable {search replacement : List α} {x : α}

theorem mem_of_isPrefixOf {subject : List α} (isPrefix : search.isPrefixOf subject = true)
    (member : x ∈ search) : x ∈ subject :=
  (List.isPrefixOf_iff_prefix.mp isPrefix).subset member

theorem occurs_iff_infix {subject : List α} :
    occurs search subject = true ↔ search <:+: subject := by
  induction subject with
  | nil => simp [occurs]
  | cons y rest ih =>
      rw [occurs, Bool.or_eq_true, ih, List.isPrefixOf_iff_prefix, List.infix_cons_iff]

theorem occurs_append (front back : List α) (absent : x ∉ front) :
    occurs (x :: search) (front ++ back) = occurs (x :: search) back := by
  induction front with
  | nil => rfl
  | cons y rest ih =>
      have other : x ≠ y := fun same => absent (by rw [same]; exact List.mem_cons_self)
      rw [List.cons_append, occurs, ih fun later => absent (List.mem_cons_of_mem y later)]
      simp [List.isPrefixOf, other]

theorem replaceAll_absent {subject : List α} (member : x ∈ search) (absent : x ∉ subject) :
    replaceAll subject search replacement = subject := by
  induction subject with
  | nil => rfl
  | cons y rest ih =>
      have miss : search.isPrefixOf (y :: rest) = false := by
        by_contra hit
        exact absent (mem_of_isPrefixOf (Bool.of_not_eq_false hit) member)
      rw [replaceAll, replaceFrom, miss]
      exact congrArg (y :: ·) (ih fun later => absent (List.mem_cons_of_mem y later))

theorem replaceAll_append (front back : List α) (absent : x ∉ front) :
    replaceAll (front ++ back) (x :: search) replacement =
      front ++ replaceAll back (x :: search) replacement := by
  induction front with
  | nil => rfl
  | cons y rest ih =>
      have other : x ≠ y := fun same => absent (by rw [same]; exact List.mem_cons_self)
      have miss : (x :: search).isPrefixOf (y :: (rest ++ back)) = false := by
        simp [List.isPrefixOf, other]
      rw [List.cons_append, replaceAll, replaceFrom, miss]
      exact congrArg (y :: ·) (ih fun later => absent (List.mem_cons_of_mem y later))

theorem replaceFrom_skip (skipped back : List α) :
    replaceFrom search replacement skipped.length (skipped ++ back) =
      replaceAll back search replacement := by
  induction skipped with
  | nil => rfl
  | cons y rest ih => exact ih

theorem replaceAll_hit (back : List α) :
    replaceAll (x :: search ++ back) (x :: search) replacement =
      replacement ++ replaceAll back (x :: search) replacement := by
  have hit : (x :: search).isPrefixOf (x :: (search ++ back)) = true :=
    List.isPrefixOf_iff_prefix.mpr (List.prefix_append (x :: search) back)
  rw [List.cons_append, replaceAll, replaceFrom, if_pos hit]
  exact congrArg (replacement ++ ·) (replaceFrom_skip search back)

theorem mem_replaceFrom {skip : Nat} {subject : List α}
    (member : x ∈ replaceFrom search replacement skip subject) :
    x ∈ subject ∨ x ∈ replacement := by
  fun_induction replaceFrom search replacement skip subject with
  | case1 => exact .inl member
  | case2 _ _ _ ih => exact (ih member).imp_left (List.mem_cons_of_mem _)
  | case3 _ _ _ ih =>
      rcases List.mem_append.mp member with inserted | later
      · exact .inr inserted
      · exact (ih later).imp_left (List.mem_cons_of_mem _)
  | case4 _ _ _ ih =>
      rcases List.mem_cons.mp member with rfl | later
      · exact .inl List.mem_cons_self
      · exact (ih later).imp_left (List.mem_cons_of_mem _)

def firstAt (search : List α) : List α → Option Nat
  | [] => if search.isEmpty then some 0 else none
  | x :: rest =>
      if search.isPrefixOf (x :: rest) then some 0 else (firstAt search rest).map (· + 1)

inductive Occurrences (search : List α) : List α → Nat → Prop
  | done {subject : List α} : firstAt search subject = none → Occurrences search subject 0
  | found {subject : List α} {front count : Nat} : firstAt search subject = some front →
      Occurrences search (subject.drop (front + search.length)) count →
      Occurrences search subject (count + 1)

theorem firstAt_occurs {subject : List α} {front : Nat}
    (found : firstAt search subject = some front) : search <+: subject.drop front := by
  induction subject generalizing front with
  | nil =>
      simp only [firstAt, List.isEmpty_iff] at found
      split at found
      case isTrue empty =>
        rw [empty]
        exact List.nil_prefix
      case isFalse => contradiction
  | cons y rest ih =>
      rw [firstAt] at found
      split at found
      case isTrue hit =>
        obtain rfl := Option.some.inj found
        exact List.isPrefixOf_iff_prefix.mp hit
      case isFalse =>
        obtain ⟨later, foundLater, rfl⟩ := Option.map_eq_some_iff.mp found
        rw [List.drop_succ_cons]
        exact ih foundLater

theorem firstAt_length {subject : List α} {front : Nat}
    (found : firstAt search subject = some front) (nonempty : search ≠ []) :
    front + search.length ≤ subject.length := by
  have fits := (firstAt_occurs found).length_le
  have some_left := List.length_pos_iff.mpr nonempty
  rw [List.length_drop] at fits
  omega

theorem replaceAll_none {subject : List α} (none_found : firstAt search subject = none) :
    replaceAll subject search replacement = subject := by
  induction subject with
  | nil => rfl
  | cons y rest ih =>
      rw [firstAt] at none_found
      split at none_found
      case isTrue => contradiction
      case isFalse miss =>
        rw [replaceAll, replaceFrom, if_neg miss]
        exact congrArg (y :: ·) (ih (Option.map_eq_none_iff.mp none_found))

theorem replaceAll_first {subject : List α} {front : Nat}
    (found : firstAt search subject = some front) (nonempty : search ≠ []) :
    replaceAll subject search replacement =
      subject.take front ++
        (replacement ++ replaceAll (subject.drop (front + search.length)) search replacement) := by
  induction subject generalizing front with
  | nil =>
      have fits := firstAt_length found nonempty
      have some_left := List.length_pos_iff.mpr nonempty
      simp only [List.length_nil] at fits
      omega
  | cons y rest ih =>
      rw [firstAt] at found
      split at found
      case isTrue hit =>
        obtain rfl := Option.some.inj found
        obtain ⟨back, behind⟩ := List.isPrefixOf_iff_prefix.mp hit
        obtain ⟨x, tail, rfl⟩ := List.exists_cons_of_ne_nil nonempty
        rw [← behind, replaceAll_hit, Nat.zero_add, List.drop_left, List.take_zero,
          List.nil_append]
      case isFalse miss =>
        obtain ⟨later, foundLater, rfl⟩ := Option.map_eq_some_iff.mp found
        rw [replaceAll, replaceFrom, if_neg miss, Nat.add_right_comm, List.drop_succ_cons,
          List.take_succ_cons, List.cons_append]
        exact congrArg (y :: ·) (ih foundLater)

theorem occurrences_exist (subject : List α) (nonempty : search ≠ []) :
    ∃ count, Occurrences search subject count := by
  induction length : subject.length using Nat.strongRecOn generalizing subject with
  | _ n ih =>
      cases found : firstAt search subject with
      | none => exact ⟨0, .done found⟩
      | some front =>
          have fits := firstAt_length found nonempty
          have some_left := List.length_pos_iff.mpr nonempty
          have shorter : (subject.drop (front + search.length)).length < n := by
            rw [List.length_drop]
            omega
          obtain ⟨count, later⟩ := ih _ shorter _ rfl
          exact ⟨count + 1, .found found later⟩

theorem Occurrences.length {subject : List α} {count : Nat}
    (occurrences : Occurrences search subject count) (nonempty : search ≠ []) :
    (replaceAll subject search replacement).length + count * search.length =
      subject.length + count * replacement.length := by
  induction occurrences with
  | done none_found => simp [replaceAll_none none_found]
  | @found subject front count first _ ih =>
      have fits := firstAt_length first nonempty
      rw [replaceAll_first first nonempty, List.length_append, List.length_append,
        List.length_take, Nat.succ_mul, Nat.succ_mul]
      rw [List.length_drop] at ih
      omega

theorem occurs_of_firstAt {subject : List α} (none_found : firstAt search subject = none) :
    occurs search subject = false := by
  induction subject with
  | nil =>
      rw [firstAt] at none_found
      rw [occurs]
      cases search with
      | nil => cases none_found
      | cons => rfl
  | cons y rest ih =>
      rw [firstAt] at none_found
      split at none_found
      case isTrue => contradiction
      case isFalse miss =>
        rw [occurs, ih (Option.map_eq_none_iff.mp none_found), Bool.or_false]
        exact Bool.eq_false_iff.mpr miss

theorem occurs_of_replaceAll_self {subject : List α}
    (shorter : replacement.length < search.length)
    (same : replaceAll subject search replacement = subject) : occurs search subject = false := by
  have nonempty : search ≠ [] := List.ne_nil_of_length_pos (Nat.zero_lt_of_lt shorter)
  obtain ⟨count, occurrences⟩ := occurrences_exist subject nonempty
  have lengths : (replaceAll subject search replacement).length + _ = _ :=
    occurrences.length nonempty
  rw [same, Nat.add_left_cancel_iff] at lengths
  cases occurrences with
  | done none_found => exact occurs_of_firstAt none_found
  | found =>
      have equal := Nat.eq_of_mul_eq_mul_left (Nat.succ_pos _) lengths
      exact absurd equal (Nat.ne_of_gt shorter)

theorem Occurrences.le {subject : List α} {count : Nat}
    (occurrences : Occurrences search subject count) (nonempty : search ≠ []) :
    count ≤ subject.length := by
  have some_left := List.length_pos_iff.mpr nonempty
  have lengths : _ + count * search.length = subject.length + count * ([] : List α).length :=
    occurrences.length nonempty
  have at_least := Nat.le_mul_of_pos_right count some_left
  rw [List.length_nil, Nat.mul_zero] at lengths
  omega

end VitaTools.Library
