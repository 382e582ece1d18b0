import Splitting.Proofs.Run
import Splitting.Solver.Basic

/-!
# Blocks

The blocks of a problem answer one after the other. Their answers are stacked into one vector, and
cutting it gives the answers back.
-/

namespace Splitting.Solver

variable {σ F : Type}

/-! ## Stacking and cutting -/

def stack (xs : List (Array F)) : Array F := xs.foldl (· ++ ·) #[]

theorem foldl_append (xs : List (Array F)) (y : Array F) :
    xs.foldl (· ++ ·) y = y ++ stack xs := by
  unfold stack
  induction xs generalizing y with
  | nil => simp
  | cons x xs ih =>
    rw [List.foldl_cons, List.foldl_cons, ih, ih (#[] ++ x), Array.empty_append, Array.append_assoc]

@[simp] theorem stack_nil : stack ([] : List (Array F)) = #[] := rfl

@[simp] theorem stack_cons (x : Array F) (xs : List (Array F)) :
    stack (x :: xs) = x ++ stack xs := by
  show (x :: xs).foldl (· ++ ·) #[] = _
  rw [List.foldl_cons, foldl_append, Array.empty_append]

theorem size_stack (xs : List (Array F)) : (stack xs).size = total (xs.map Array.size) := by
  induction xs with
  | nil => rfl
  | cons x xs ih => simp [ih]

theorem extract_append_middle (x y z : Array F) :
    (x ++ (y ++ z)).extract x.size (x.size + y.size) = y := by
  simp [Array.extract_append]

theorem cut_append_stack (y : Array F) (xs : List (Array F)) :
    cut (y ++ stack xs) (xs.map Array.size) y.size = xs := by
  induction xs generalizing y with
  | nil => rfl
  | cons x xs ih =>
    have hx : ((y ++ x) ++ stack xs).extract y.size (y.size + x.size) = x := by
      rw [Array.append_assoc, extract_append_middle]
    rw [stack_cons, ← Array.append_assoc, List.map_cons, cut, hx, ← Array.size_append, ih]

theorem cut_stack (xs : List (Array F)) : cut (stack xs) (xs.map Array.size) 0 = xs := by
  simpa using cut_append_stack #[] xs

theorem map_size_cut {x : Array F} {ns : List Nat} {start : Nat}
    (h : start + total ns ≤ x.size) : (cut x ns start).map Array.size = ns := by
  induction ns generalizing start with
  | nil => rfl
  | cons n ns ih =>
    simp only [total_cons] at h
    rw [cut, List.map_cons, ih (by omega), Array.size_extract]
    congr 1
    omega

theorem extract_append_stack_cut {x : Array F} {ns : List Nat} (start : Nat)
    (h : start + total ns = x.size) : x.extract 0 start ++ stack (cut x ns start) = x := by
  induction ns generalizing start with
  | nil =>
    obtain rfl : start = x.size := by simpa using h
    simp [cut]
  | cons n ns ih =>
    simp only [total_cons] at h
    have hrest := ih (start + n) (by omega)
    rw [cut, stack_cons, ← Array.append_assoc, Array.extract_append_extract]
    simpa using hrest

theorem stack_cut {x : Array F} {ns : List Nat} (h : total ns = x.size) :
    stack (cut x ns 0) = x := by
  have hx : 0 + total ns = x.size := by omega
  simpa using extract_append_stack_cut 0 hx

/-! ## Answers -/

theorem apply_eq_ok {p : Prox σ F} {t : F} {v x : Array F} {room : Nat} {w w' : World σ F} :
    p.apply t v room w = .ok x w' ↔
      v.size = p.dim ∧ room = p.dim ∧ p.eval t v w = .ok x w' ∧ x.size = p.dim := by
  unfold Prox.apply
  simp only [Run.bind_eq_ok, Run.require_eq_ok, Run.pure_eq_ok]
  constructor
  · rintro ⟨-, _, ⟨⟨hv, hr⟩, rfl⟩, y, u, hy, -, _, ⟨hs, rfl⟩, rfl, rfl⟩
    exact ⟨hv, hr, hy, hs⟩
  · rintro ⟨hv, hr, hy, hs⟩
    exact ⟨(), w, ⟨⟨hv, hr⟩, rfl⟩, x, w', hy, (), w', ⟨hs, rfl⟩, rfl, rfl⟩

/-- The operators, called in order with step `rho` on their parts of `v`, the first of which begins
at `start`, answer `xs`. -/
inductive Answers (rho : F) (v : Array F) :
    List (Prox σ F) → Nat → World σ F → List (Array F) → World σ F → Prop
  | nil (start : Nat) (w : World σ F) : Answers rho v [] start w [] w
  | cons {p : Prox σ F} {ps : List (Prox σ F)} {start : Nat} {x : Array F} {xs : List (Array F)}
      {w u w' : World σ F} :
    p.apply rho (v.extract start (start + p.dim)) p.dim w = .ok x u →
      Answers rho v ps (start + p.dim) u xs w' → Answers rho v (p :: ps) start w (x :: xs) w'

theorem Answers.sizes {rho : F} {v : Array F} {ps : List (Prox σ F)} {start : Nat}
    {xs : List (Array F)} {w w' : World σ F} (h : Answers rho v ps start w xs w') :
    xs.map Array.size = ps.map Prox.dim := by
  induction h with
  | nil => rfl
  | cons hx _ ih =>
    obtain ⟨-, -, -, hs⟩ := apply_eq_ok.mp hx
    rw [List.map_cons, List.map_cons, ih, hs]

theorem proxPoints_eq_ok {rho : F} {iter : Nat} {v : Array F} {ps : List (Prox σ F)}
    {block start : Nat} {y z : Array F} {w w' : World σ F} :
    proxPoints rho iter v ps block start y w = .ok z w' ↔
      ∃ xs, Answers rho v ps start w xs w' ∧ z = y ++ stack xs := by
  induction ps generalizing block start y w with
  | nil =>
    constructor
    · rintro ⟨⟩
      exact ⟨[], .nil start _, by simp⟩
    · rintro ⟨xs, h, rfl⟩
      cases h
      simp [proxPoints]
  | cons p ps ih =>
    constructor
    · intro h
      unfold proxPoints at h
      split at h
      · rename_i x u hx
        obtain ⟨xs, hxs, rfl⟩ := ih.mp h
        exact ⟨x :: xs, .cons hx hxs, by rw [stack_cons, Array.append_assoc]⟩
      · cases h
      · cases h
    · rintro ⟨xs, h, rfl⟩
      cases h with
      | cons hx hxs =>
        unfold proxPoints
        rw [hx]
        exact ih.mpr ⟨_, hxs, by rw [stack_cons, Array.append_assoc]⟩

end Splitting.Solver
