/-
Sequences that may fail, and lists side by side.

Facts about `Except`, about going through a list with it, and about two
lists that are related element by element. Nothing here knows of a
message.
-/
import Mathlib.Algebra.Order.BigOperators.Group.List
import Mathlib.Algebra.Order.Ring.Nat
import Mathlib.Data.List.Forall2

namespace TlsHello

-- ============================================================ one by one

/-- Two things that may fail, one after the other. -/
theorem except_bind_eq_ok_iff {x : Except ε α} {f : α → Except ε β} {b : β} :
    (x >>= f) = .ok b ↔ ∃ a, x = .ok a ∧ f a = .ok b := by
  cases x with
  | error e => exact ⟨nofun, nofun⟩
  | ok a => exact ⟨fun h => ⟨a, rfl, h⟩, fun ⟨_, ha, h⟩ => Except.ok.inj ha ▸ h⟩

theorem except_bind_eq_error_iff {x : Except ε α} {f : α → Except ε β} {e : ε} :
    (x >>= f) = .error e ↔ x = .error e ∨ ∃ a, x = .ok a ∧ f a = .error e := by
  cases x with
  | error e' =>
      refine ⟨fun h => .inl (congrArg Except.error (Except.error.inj h)), fun h => ?_⟩
      rcases h with h | ⟨a, h, -⟩
      · exact congrArg Except.error (Except.error.inj h)
      · cases h
  | ok a =>
      refine ⟨fun h => .inr ⟨a, rfl, h⟩, fun h => ?_⟩
      rcases h with h | ⟨a', h, hf⟩
      · cases h
      · exact Except.ok.inj h ▸ hf

theorem except_map_eq_ok_iff {x : Except ε α} {f : α → β} {b : β} :
    f <$> x = .ok b ↔ ∃ a, x = .ok a ∧ f a = b := by
  cases x with
  | error e => exact ⟨nofun, nofun⟩
  | ok a =>
      exact ⟨fun h => ⟨a, rfl, Except.ok.inj h⟩,
        fun ⟨_, ha, h⟩ => Except.ok.inj ha ▸ congrArg Except.ok h⟩

theorem except_map_eq_error_iff {x : Except ε α} {f : α → β} {e : ε} :
    f <$> x = .error e ↔ x = .error e := by
  cases x with
  | error e' => exact ⟨fun h => congrArg Except.error (Except.error.inj h),
      fun h => congrArg Except.error (Except.error.inj h)⟩
  | ok a => exact ⟨nofun, nofun⟩

/-- A list is gone through without a failure exactly when each of its
elements is. -/
theorem mapM_eq_ok_iff {f : α → Except ε β} {xs : List α} {ys : List β} :
    xs.mapM f = .ok ys ↔ List.Forall₂ (fun x y => f x = .ok y) xs ys := by
  induction xs generalizing ys with
  | nil =>
      rw [List.mapM_nil, List.forall₂_nil_left_iff]
      exact ⟨fun h => (Except.ok.inj h).symm, fun h => h ▸ rfl⟩
  | cons x xs ih =>
      rw [List.mapM_cons, except_bind_eq_ok_iff, List.forall₂_cons_left_iff]
      refine ⟨fun ⟨y, hy, h⟩ => ?_, fun ⟨y, ys', hy, hys, h⟩ => ⟨y, hy, ?_⟩⟩
      · obtain ⟨ys', hys, h⟩ := except_bind_eq_ok_iff.1 h
        exact ⟨y, ys', hy, ih.1 hys, (Except.ok.inj h).symm⟩
      · rw [except_bind_eq_ok_iff]
        exact ⟨ys', ih.2 hys, congrArg Except.ok h.symm⟩

/-- A list is gone through up to the first element that fails. -/
theorem mapM_eq_error_iff {f : α → Except ε β} {xs : List α} {e : ε} :
    xs.mapM f = .error e
      ↔ ∃ front x rest, xs = front ++ x :: rest ∧ (∀ y ∈ front, ∃ b, f y = .ok b)
          ∧ f x = .error e := by
  induction xs with
  | nil =>
      rw [List.mapM_nil]
      refine ⟨nofun, fun ⟨front, x, rest, h, _⟩ => ?_⟩
      cases front <;> cases h
  | cons x xs ih =>
      rw [List.mapM_cons, except_bind_eq_error_iff]
      constructor
      · intro h
        rcases h with hx | ⟨b, hb, h⟩
        · exact ⟨[], x, xs, rfl, nofun, hx⟩
        · rcases except_bind_eq_error_iff.1 h with hxs | ⟨_, _, h⟩
          · obtain ⟨front, x', rest, hxs, hfront, hx'⟩ := ih.1 hxs
            refine ⟨x :: front, x', rest, congrArg (x :: ·) hxs, ?_, hx'⟩
            exact List.forall_mem_cons.2 ⟨⟨b, hb⟩, hfront⟩
          · cases h
      · intro ⟨front, x', rest, hxs, hfront, hx'⟩
        cases front with
        | nil =>
            obtain ⟨rfl, rfl⟩ := List.cons.inj hxs
            exact .inl hx'
        | cons y front =>
            obtain ⟨rfl, rfl⟩ := List.cons.inj hxs
            obtain ⟨⟨b, hb⟩, hfront⟩ := List.forall_mem_cons.1 hfront
            refine .inr ⟨b, hb, except_bind_eq_error_iff.2 (.inl ?_)⟩
            exact ih.2 ⟨front, x', rest, rfl, hfront, hx'⟩

-- ========================================================== side by side

variable {R : α → β → Prop} {xs : List α} {ys : List β}

theorem exists_forall₂_iff :
    (∃ ys, List.Forall₂ R xs ys) ↔ ∀ x ∈ xs, ∃ y, R x y := by
  induction xs with
  | nil => exact ⟨fun _ => nofun, fun _ => ⟨[], .nil⟩⟩
  | cons x xs ih =>
      rw [List.forall_mem_cons, ← ih]
      refine ⟨fun ⟨ys, hys⟩ => ?_, fun ⟨⟨y, hy⟩, ys, hys⟩ => ⟨y :: ys, .cons hy hys⟩⟩
      obtain ⟨y, ys', hy, hys', -⟩ := List.forall₂_cons_left_iff.1 hys
      exact ⟨⟨y, hy⟩, ys', hys'⟩

/-- Two lists that are related element by element have related elements
at the same places and end at the same place. -/
theorem forall₂_getElem? (h : List.Forall₂ R xs ys) (i : Nat) :
    (xs[i]? = none ∧ ys[i]? = none) ∨ ∃ x y, xs[i]? = some x ∧ ys[i]? = some y ∧ R x y := by
  induction h generalizing i with
  | nil => exact .inl ⟨rfl, rfl⟩
  | @cons x y xs ys hxy _ ih =>
      cases i with
      | zero => exact .inr ⟨x, y, rfl, rfl, hxy⟩
      | succ i => exact ih i

theorem exists_left_of_mem (h : List.Forall₂ R xs ys) {y : β} (hy : y ∈ ys) :
    ∃ x ∈ xs, R x y := by
  obtain ⟨i, hi⟩ := List.mem_iff_getElem?.1 hy
  rcases forall₂_getElem? h i with ⟨-, hnone⟩ | ⟨x, y', hx, hy', hxy⟩
  · rw [hi] at hnone
    cases hnone
  · rw [hi] at hy'
    obtain rfl := Option.some.inj hy'
    exact ⟨x, List.mem_of_getElem? hx, hxy⟩

theorem exists_right_of_mem (h : List.Forall₂ R xs ys) {x : α} (hx : x ∈ xs) :
    ∃ y ∈ ys, R x y :=
  exists_left_of_mem (R := flip R) h.flip hx

/-- A list next to another one, seen at one of its elements. -/
theorem forall₂_append_cons_left_iff {xs' : List α} {x : α} :
    List.Forall₂ R (xs ++ x :: xs') ys
      ↔ ∃ before y behind, List.Forall₂ R xs before ∧ R x y ∧ List.Forall₂ R xs' behind
          ∧ ys = before ++ y :: behind := by
  constructor
  · intro h
    induction xs generalizing ys with
    | nil =>
        obtain ⟨y, behind, hxy, hbehind, rfl⟩ := List.forall₂_cons_left_iff.1 h
        exact ⟨[], y, behind, .nil, hxy, hbehind, rfl⟩
    | cons x' xs ih =>
        obtain ⟨y', ys, hxy', hys, rfl⟩ := List.forall₂_cons_left_iff.1 h
        obtain ⟨before, y, behind, hbefore, hxy, hbehind, rfl⟩ := ih hys
        exact ⟨y' :: before, y, behind, .cons hxy' hbefore, hxy, hbehind, rfl⟩
  · rintro ⟨before, y, behind, hbefore, hxy, hbehind, rfl⟩
    exact List.rel_append hbefore (.cons hxy hbehind)

/-- Two searches that get the same answer at every place find the same. -/
theorem findSome?_eq_of_forall₂ {f : α → Option γ} {g : β → Option γ}
    (h : List.Forall₂ (fun x y => f x = g y) xs ys) : xs.findSome? f = ys.findSome? g := by
  induction h with
  | nil => rfl
  | cons hxy _ ih => rw [List.findSome?_cons, List.findSome?_cons, hxy, ih]

/-- Two lists written entry by entry: the one whose entries are all
shorter is the shorter. -/
theorem length_flatMap_le {f : α → List γ} {g : β → List γ}
    (h : List.Forall₂ (fun x y => (f x).length ≤ (g y).length) xs ys) :
    (xs.flatMap f).length ≤ (ys.flatMap g).length := by
  rw [List.length_flatMap, List.length_flatMap]
  apply List.Forall₂.sum_le_sum
  rw [List.forall₂_map_left_iff, List.forall₂_map_right_iff]
  exact h

end TlsHello
