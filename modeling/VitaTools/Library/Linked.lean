import Mathlib.Data.List.Basic
import Mathlib.Data.List.Nodup
import Mathlib.Logic.Function.Basic

set_option autoImplicit false

namespace VitaTools.Library

universe u

abbrev Address := Nat

abbrev Heap (Node : Type u) := Address → Option Node

/-- From `p` the link leads through exactly these addresses. -/
def Follows {Node : Type u} (link : Node → Option Address) (heap : Heap Node) :
    Option Address → List Address → Prop
  | p, [] => p = none
  | p, a :: rest => p = some a ∧ ∃ node, heap a = some node ∧ Follows link heap (link node) rest

/-- The address in front of position `i`. -/
def before (chain : List Address) : Nat → Option Address
  | 0 => none
  | i + 1 => chain[i]?

structure Links (Node : Type u) where
  next : Node → Option Address
  prev : Node → Option Address

structure Links.Linked {Node : Type u} (links : Links Node) (heap : Heap Node)
    (chain : List Address) : Prop where
  nodup : chain.Nodup
  node : ∀ (i : Nat) a, chain[i]? = some a →
    ∃ node, heap a = some node ∧ links.next node = chain[i + 1]? ∧
      links.prev node = before chain i

section

variable {Node : Type u} {link : Node → Option Address} {heap other : Heap Node}

theorem Follows.congr {p : Option Address} {rest : List Address}
    (follows : Follows link heap p rest)
    (same : ∀ a ∈ rest, (other a).map link = (heap a).map link) : Follows link other p rest := by
  induction rest generalizing p with
  | nil => exact follows
  | cons a rest ih =>
      obtain ⟨first, node, found, later⟩ := follows
      have links := same a List.mem_cons_self
      rw [found] at links
      obtain ⟨node', found', link'⟩ := Option.map_eq_some_iff.mp links
      refine ⟨first, node', found', ?_⟩
      rw [link']
      exact ih later fun b member => same b (List.mem_cons_of_mem a member)

theorem Follows.unique {p : Option Address} {rest more : List Address}
    (follows : Follows link heap p rest) (also : Follows link heap p more) : rest = more := by
  induction rest generalizing p more with
  | nil =>
      cases more with
      | nil => rfl
      | cons b more => exact absurd (follows.symm.trans also.1) (by simp)
  | cons a rest ih =>
      obtain ⟨rfl, node, found, later⟩ := follows
      cases more with
      | nil => exact absurd also (by simp [Follows])
      | cons b more =>
          obtain ⟨same, node', found', later'⟩ := also
          cases Option.some.inj same
          cases Option.some.inj (found.symm.trans found')
          rw [ih later later']

end

theorem before_length (chain : List Address) : before chain chain.length = chain.getLast? := by
  cases chain with
  | nil => rfl
  | cons a rest => rw [List.getLast?_eq_getElem?, List.length_cons, before, Nat.add_sub_cancel]

namespace Links.Linked

variable {Node : Type u} {links : Links Node} {heap other : Heap Node} {chain : List Address}

theorem follows_next (linked : links.Linked heap chain) (i : Nat) :
    Follows links.next heap chain[i]? (chain.drop i) := by
  induction left : chain.length - i generalizing i with
  | zero =>
      rw [List.drop_eq_nil_of_le (by omega), List.getElem?_eq_none (by omega)]
      rfl
  | succ left ih =>
      have inside : i < chain.length := by omega
      rw [List.drop_eq_getElem_cons inside, List.getElem?_eq_getElem inside]
      obtain ⟨node, found, next, -⟩ := linked.node i _ (List.getElem?_eq_getElem inside)
      refine ⟨rfl, node, found, ?_⟩
      rw [next]
      exact ih (i + 1) (by omega)

theorem follows_prev (linked : links.Linked heap chain) {i : Nat} (inside : i ≤ chain.length) :
    Follows links.prev heap (before chain i) (chain.take i).reverse := by
  induction i with
  | zero => rfl
  | succ i ih =>
      rw [List.take_succ_eq_append_getElem (by omega), List.reverse_append]
      obtain ⟨node, found, -, prev⟩ := linked.node i _ (List.getElem?_eq_getElem (by omega))
      refine ⟨List.getElem?_eq_getElem (by omega), node, found, ?_⟩
      rw [prev]
      exact ih (by omega)

theorem nil : links.Linked heap [] := ⟨List.nodup_nil, fun _ _ found => by cases found⟩

theorem congr (linked : links.Linked heap chain)
    (kept : ∀ a ∈ chain, ∀ node, heap a = some node → ∃ node', other a = some node' ∧
      links.next node' = links.next node ∧ links.prev node' = links.prev node) :
    links.Linked other chain := by
  refine ⟨linked.nodup, fun i a place => ?_⟩
  obtain ⟨node, found, next, prev⟩ := linked.node i a place
  obtain ⟨node', found', next', prev'⟩ := kept a (List.mem_iff_getElem?.mpr ⟨i, place⟩) node found
  exact ⟨node', found', next'.trans next, prev'.trans prev⟩

theorem append (linked : links.Linked heap chain) {fresh : Address} (new : fresh ∉ chain)
    {node : Node} (found : other fresh = some node) (next : links.next node = none)
    (prev : links.prev node = chain.getLast?)
    (kept : ∀ (i : Nat) a node, chain[i]? = some a → heap a = some node →
      ∃ node', other a = some node' ∧
        links.next node' = (if i + 1 = chain.length then some fresh else links.next node) ∧
        links.prev node' = links.prev node) :
    links.Linked other (chain ++ [fresh]) := by
  constructor
  case nodup =>
    rw [List.nodup_append]
    refine ⟨linked.nodup, List.nodup_singleton fresh, ?_⟩
    rintro a member b last rfl
    exact new (List.mem_singleton.mp last ▸ member)
  case node =>
    intro i a place
    have front (j : Nat) (less : j ≤ chain.length) :
        before (chain ++ [fresh]) j = before chain j := by
      cases j with
      | zero => rfl
      | succ j => exact List.getElem?_append_left (by omega)
    by_cases inside : i < chain.length
    next =>
      rw [List.getElem?_append_left inside] at place
      obtain ⟨old, was, oldNext, oldPrev⟩ := linked.node i a place
      obtain ⟨node', now, newNext, newPrev⟩ := kept i a old place was
      refine ⟨node', now, ?_, by rw [newPrev, oldPrev, front i (Nat.le_of_lt inside)]⟩
      rw [newNext]
      split
      next last => rw [last, List.getElem?_concat_length]
      next more => rw [oldNext, List.getElem?_append_left (by omega)]
    next =>
      have last : i = chain.length := by
        have few := (List.getElem?_eq_some_iff.mp place).1
        rw [List.length_append, List.length_singleton] at few
        omega
      subst last
      rw [List.getElem?_concat_length] at place
      cases place
      refine ⟨node, found, ?_, ?_⟩
      · rw [next, List.getElem?_eq_none (by simp)]
      · rw [prev, front _ (Nat.le_refl _), before_length]

theorem erase (linked : links.Linked heap chain) {i : Nat}
    (kept : ∀ (j : Nat) a node, j ≠ i → chain[j]? = some a → heap a = some node →
      ∃ node', other a = some node' ∧
        links.next node' = (if j + 1 = i then chain[i + 1]? else links.next node) ∧
        links.prev node' = (if j = i + 1 then before chain i else links.prev node)) :
    links.Linked other (chain.eraseIdx i) := by
  constructor
  case nodup => exact linked.nodup.eraseIdx i
  case node =>
    intro j a place
    rw [List.getElem?_eraseIdx] at place
    split at place
    next less =>
      obtain ⟨old, was, oldNext, oldPrev⟩ := linked.node j a place
      obtain ⟨node', now, newNext, newPrev⟩ := kept j a old (by omega) place was
      refine ⟨node', now, ?_, ?_⟩
      · rw [newNext, List.getElem?_eraseIdx]
        split
        next last => rw [if_neg (by omega), last]
        next more => rw [if_pos (by omega), oldNext]
      · rw [newPrev, if_neg (by omega), oldPrev]
        cases j with
        | zero => rfl
        | succ j => rw [before, before, List.getElem?_eraseIdx, if_pos (by omega)]
    next more =>
      obtain ⟨old, was, oldNext, oldPrev⟩ := linked.node (j + 1) a place
      obtain ⟨node', now, newNext, newPrev⟩ := kept (j + 1) a old (by omega) place was
      refine ⟨node', now, ?_, ?_⟩
      · rw [newNext, if_neg (by omega), oldNext, List.getElem?_eraseIdx, if_neg (by omega)]
      · rw [newPrev, oldPrev]
        split
        next first =>
          have same : j = i := by omega
          subst same
          cases j with
          | zero => rfl
          | succ j => rw [before, before, List.getElem?_eraseIdx, if_pos (by omega)]
        next later =>
          obtain ⟨j, rfl⟩ : ∃ k, j = k + 1 := ⟨j - 1, by omega⟩
          rw [before, before, List.getElem?_eraseIdx, if_neg (by omega)]

end Links.Linked

end VitaTools.Library
