import Mathlib.Data.Option.Basic

set_option autoImplicit false

namespace VitaTools.Library

universe u v

/-- `x` has no other result than `result`, and has it when `enough` holds. -/
structure Gives {α : Type u} (x : Option α) (enough : Prop) (result : α) : Prop where
  only : ∀ r, x = some r → r = result
  some : enough → x = some result

namespace Gives

variable {α : Type u} {β : Type v} {x : Option α} {f : α → Option β} {enough more : Prop}
variable {result : α} {last : β}

theorem of_eq (same : x = Option.some result) : Gives x enough result :=
  ⟨fun _ found => Option.some.inj (found.symm.trans same), fun _ => same⟩

theorem of_none (missing : x = none) (short : ¬ enough) : Gives x enough result :=
  ⟨fun _ found => absurd (missing.symm.trans found) (Option.some_ne_none _).symm,
    fun holds => absurd holds short⟩

theorem mono (gives : Gives x enough result) (implies : more → enough) : Gives x more result :=
  ⟨gives.only, fun holds => gives.some (implies holds)⟩

theorem bind (first : Gives x enough result) (second : Gives (f result) more last) :
    Gives (x.bind f) (enough ∧ more) last := by
  constructor
  case only =>
    intro r found
    obtain ⟨middle, has, then_has⟩ := Option.bind_eq_some_iff.mp found
    cases first.only middle has
    exact second.only r then_has
  case some =>
    intro holds
    rw [first.some holds.1]
    exact second.some holds.2

end Gives

end VitaTools.Library
