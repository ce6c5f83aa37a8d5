import Recompile.Path.Basic

/-!
# The order of paths

Paths are ordered component by component: the root before a leading `.`, that before
`..`, that before names, and names by their characters. So `/a/x` comes before `/a-b/x`.
Paths of which neither is smaller are the same path (`same_of_not_lt`).
-/

set_option autoImplicit false

namespace Recompile.Path

/-- The place of a component among all components. -/
def Component.key : Component → List Nat
  | .root => [0]
  | .current => [1]
  | .up => [2]
  | .name n => 3 :: n.map Char.toNat

/-- The place of a path among all paths. -/
def key (p : Path) : List (List Nat) :=
  p.components.map Component.key

instance : LT Path :=
  ⟨fun p q => p.key < q.key⟩

instance (p q : Path) : Decidable (p < q) :=
  inferInstanceAs (Decidable (p.key < q.key))

/-- Paths are compared by their keys, component after component. -/
theorem lt_iff {p q : Path} : p < q ↔ p.key < q.key :=
  Iff.rfl

/-- The order of paths is transitive. -/
theorem lt_trans {p q r : Path} (hpq : p < q) (hqr : q < r) : p < r :=
  List.lt_trans (lt_iff.1 hpq) (lt_iff.1 hqr)

/-- No path comes before itself. -/
theorem lt_irrefl (p : Path) : ¬ p < p :=
  List.lt_irrefl p.key

/-- Of two paths only one can come before the other. -/
theorem lt_asymm {p q : Path} (h : p < q) : ¬ q < p :=
  List.lt_asymm (lt_iff.1 h)

/-- Components with one place are one component. -/
theorem Component.key_inj {c d : Component} (h : c.key = d.key) : c = d := by
  cases c <;> cases d <;> simp_all [Component.key]
  rename_i m n
  exact List.map_inj_right (fun a b hab => Char.toNat_inj.1 hab) |>.1 h

/-- Paths with one place are the same path. -/
theorem key_eq_iff {p q : Path} : p.key = q.key ↔ p.Same q :=
  List.map_inj_right fun _ _ => Component.key_inj

/-- Paths of which neither is smaller are the same path. -/
theorem same_of_not_lt {p q : Path} (hpq : ¬ p < q) (hqp : ¬ q < p) : p.Same q :=
  key_eq_iff.1 (List.le_antisymm (List.not_lt.1 hqp) (List.not_lt.1 hpq))

/-- Another spelling of a path comes before the same paths as the first one. -/
theorem Same.lt_left {p q r : Path} (h : p.Same q) : p < r ↔ q < r := by
  rw [lt_iff, lt_iff, key_eq_iff.2 h]

/-- Two spellings of one path come in neither order. -/
theorem Same.not_lt {p q : Path} (h : p.Same q) : ¬ p < q := by
  rw [h.lt_left]
  exact lt_irrefl q

end Recompile.Path
