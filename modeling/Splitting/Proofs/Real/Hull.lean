import Splitting.Proofs.Real.Affine

/-!
# Steps as weighted means

The coefficients of a step belong to differences of images in a row. Counted for each image they
are weights that sum to one, so no step leaves the affine hull of the images that it goes by.
-/

namespace Splitting.Anderson

/-! ## The images that a step goes by -/

/-- The last samples, one more than the differences that fit. -/
def window {F : Type} (size : ℕ) (seen : List (Sample F)) : List (Sample F) := seen.rtake (size + 1)

theorem length_window_le {F : Type} (size : ℕ) (seen : List (Sample F)) :
    (window size seen).length ≤ size + 1 := by
  rw [window, List.rtake, List.length_drop]
  omega

theorem successive_drop {α : Type} (l : List α) (k : ℕ) :
    successive (l.drop k) = (successive l).drop k := by
  rw [successive, List.tail_drop_eq_drop_tail]
  exact List.drop_zipWith.symm

theorem successive_window {F : Type} (size : ℕ) (seen : List (Sample F)) :
    successive (window size seen) = (successive seen).rtake size := by
  rw [window, List.rtake, List.rtake, successive_drop, length_successive]
  congr 1
  omega

/-! ## Weighted means -/

variable {n : ℕ} {l : List (Sample ℝ)}

/-- A mean of the images, where a weight may be negative. -/
def IsMean (n : ℕ) (l : List (Sample ℝ)) (v : Array ℝ) : Prop :=
  ∃ w : Fin l.length → ℝ, ∑ i, w i = 1 ∧ vec n v = ∑ i, w i • vec n (l.get i).image

noncomputable def hull (n : ℕ) (l : List (Sample ℝ)) :
    AffineSubspace ℝ (EuclideanSpace ℝ (Fin n)) :=
  affineSpan ℝ (Set.range fun i : Fin l.length => vec n (l.get i).image)

theorem mem_hull {a : Sample ℝ} (ha : a ∈ l) : vec n a.image ∈ hull n l := by
  obtain ⟨i, rfl⟩ := List.mem_iff_get.mp ha
  exact subset_affineSpan ℝ _ ⟨i, rfl⟩

theorem isMean_of_mem_hull {v : Array ℝ} (h : vec n v ∈ hull n l) : IsMean n l v := by
  obtain ⟨w, hsum, hv⟩ := eq_affineCombination_of_mem_affineSpan_of_fintype h
  refine ⟨w, hsum, ?_⟩
  rw [hv, Finset.affineCombination_eq_linear_combination _ _ _ hsum]

theorem IsMean.apply_eq {v : Array ℝ} (h : IsMean n l v)
    (f : EuclideanSpace ℝ (Fin n) →ₗ[ℝ] ℝ) {b : ℝ} (hf : ∀ a ∈ l, f (vec n a.image) = b) :
    f (vec n v) = b := by
  obtain ⟨w, hsum, hv⟩ := h
  calc f (vec n v) = ∑ i, w i * f (vec n (l.get i).image) := by
        simp only [hv, map_sum, map_smul, smul_eq_mul]
    _ = ∑ i, w i * b := Finset.sum_congr rfl fun i _ =>
        congrArg (w i * ·) (hf _ (l.get_mem i))
    _ = b := by rw [← Finset.sum_mul, hsum, one_mul]

theorem mem_direction {memory : List (Sample ℝ)}
    (h : List.Forall₂ (fun p d => p.2.sub? p.1 = some d) (successive l) memory) :
    ∀ d ∈ memory, vec n d.image ∈ (hull n l).direction := by
  intro d hd
  obtain ⟨i, hi, rfl⟩ := List.mem_iff_getElem.mp hd
  have hi' : i < (successive l).length := h.length_eq ▸ hi
  have hsub : (successive l)[i].2.sub? (successive l)[i].1 = some memory[i] := h.get hi' hi
  obtain ⟨hfirst, hsecond⟩ := List.of_mem_zip (List.getElem_mem hi')
  rw [(vec_of_sub? hsub n).1, ← vsub_eq_sub]
  exact AffineSubspace.vsub_mem_direction (mem_hull (List.mem_of_mem_tail hsecond))
    (mem_hull hfirst)

theorem subCombined?_mem_hull {cs : List ℝ} {memory : List (Sample ℝ)} {y z : Array ℝ}
    (hm : ∀ d ∈ memory, vec n d.image ∈ (hull n l).direction) (hy : vec n y ∈ hull n l)
    (h : subCombined? cs memory y = some z) : vec n z ∈ hull n l := by
  have hsum : ((cs.zip memory).map fun p => p.1 • vec n p.2.image).sum ∈ (hull n l).direction := by
    refine list_sum_mem fun x hx => ?_
    obtain ⟨p, hp, rfl⟩ := List.mem_map.mp hx
    exact Submodule.smul_mem _ _ (hm p.2 (List.of_mem_zip hp).2)
  have hmoved := AffineSubspace.vadd_mem_of_mem_direction (neg_mem hsum) hy
  rwa [vadd_eq_add, neg_add_eq_sub, ← subCombined?_vec n _ h] at hmoved

/-! ## The step -/

section Step

variable [Spectral ℝ] {size : ℕ}

/-- After any calls a step writes a weighted mean of the last images since the rejection, whichever
coefficients come out, and so satisfies every linear equation that all of them satisfy. -/
theorem step_isMean (hsize : 0 < size) (lambda epsZero : ℝ) {calls : List (Call ℝ)}
    (hcalls : ∀ b, .advance b ∈ calls → b.Sized n) {a : Sample ℝ} (ha : a.Sized n) :
    ∃ answers s v t, State.initial.calls? size lambda epsZero calls = some (answers, s) ∧
      answers.length = calls.length ∧
      advance? size lambda epsZero a s = some (v, t) ∧ v.size = n ∧
      let images := window size (sinceRejection (calls.zip answers) ++ [a])
      images.length ≤ size + 1 ∧ images.getLast? = some a ∧
      List.Forall₂ (fun p d => p.2.sub? p.1 = some d) (successive images) t.memory ∧
      IsMean n images v ∧
      (∀ gamma w, subCombined? gamma t.memory a.image = some w → IsMean n images w) ∧
      ∀ (f : EuclideanSpace ℝ (Fin n) →ₗ[ℝ] ℝ) (b : ℝ),
        (∀ x ∈ images, f (vec n x.image) = b) → f (vec n v) = b := by
  obtain ⟨answers, s, hs, hsized, hlen⟩ :=
    State.calls?_total size lambda epsZero (initial_sized n) hcalls
  obtain ⟨v, t, hadv, hv, -⟩ := advance?_total hsized size lambda epsZero ha
  have hremembers : Remembers size (sinceRejection (calls.zip answers) ++ [a]) t :=
    (remembers_initial.calls hsize hs).advance hsize hadv
  have hpairs := hremembers.memory
  rw [← successive_window] at hpairs
  set images := window size (sinceRejection (calls.zip answers) ++ [a]) with himages
  have hlast : images.getLast? = some a := by
    rw [himages, window, List.rtake_concat_succ, List.getLast?_concat]
  have hmean : ∀ gamma w, subCombined? gamma t.memory a.image = some w → IsMean n images w :=
    fun gamma w hw => isMean_of_mem_hull
      (subCombined?_mem_hull (mem_direction hpairs) (mem_hull (List.mem_of_getLast? hlast)) hw)
  have hstep : IsMean n images v := by
    obtain ⟨-, -, ⟨-, rfl, -⟩ | ⟨-, -, gamma, -, hgamma⟩⟩ := advance?_eq_some hadv
    · exact hmean [] _ rfl
    · exact hmean _ _ hgamma
  exact ⟨answers, s, v, t, hs, hlen, hadv, hv, length_window_le _ _, hlast, hpairs, hstep, hmean,
    fun f _ => hstep.apply_eq f⟩

end Step

/-! ## Images on a line -/

section Line

/-- A sample whose image has entries that add up to one. -/
noncomputable def onLine (x r : ℝ) : Sample ℝ := ⟨#[x, 1 - x], #[r, 0]⟩

noncomputable def lineCalls : List (Call ℝ) :=
  [.advance ⟨#[0, 0], #[1, 1]⟩, .advance (onLine 0 1)]

theorem line_step_isMean :
    let _ : Spectral ℝ := .exact
    0 < 1 ∧ (∀ b, .advance b ∈ lineCalls → b.Sized 2) ∧ (onLine 1 (-1)).Sized 2 ∧
      ∃ answers s v t, State.initial.calls? 1 0 0 lineCalls = some (answers, s) ∧
        advance? 1 0 0 (onLine 1 (-1)) s = some (v, t) ∧
        IsMean 2 [onLine 0 1, onLine 1 (-1)] v ∧ v.getD 0 0 + v.getD 1 0 = 1 := by
  let _ : Spectral ℝ := .exact
  have hsized : ∀ b, .advance b ∈ lineCalls → b.Sized 2 := by
    intro b hb
    simp only [lineCalls, List.mem_cons, Call.advance.injEq, List.not_mem_nil, or_false] at hb
    rcases hb with rfl | rfl <;> exact ⟨rfl, rfl⟩
  obtain ⟨answers, s, v, t, hs, hlen, hadv, -, -, -, -, hmean, -, hline⟩ :=
    step_isMean Nat.one_pos 0 0 hsized (a := onLine 1 (-1)) ⟨rfl, rfl⟩
  obtain ⟨o, o', rfl⟩ := List.length_eq_two.mp hlen
  have hsum (x : Array ℝ) : innerₛₗ ℝ (vec 2 #[1, 1]) (vec 2 x) = x.getD 0 0 + x.getD 1 0 := by
    rw [innerₛₗ_apply_apply, inner_vec]
    simp [Finset.sum_range_succ]
  have hone : ∀ x ∈ [onLine 0 1, onLine 1 (-1)],
      innerₛₗ ℝ (vec 2 #[1, 1]) (vec 2 x.image) = 1 := by
    intro x hx
    simp only [List.mem_cons, List.not_mem_nil, or_false] at hx
    rcases hx with rfl | rfl <;> simp [hsum, onLine]
  refine ⟨Nat.one_pos, hsized, ⟨rfl, rfl⟩, _, s, v, t, hs, hadv, hmean, ?_⟩
  rw [← hsum]
  exact hline _ 1 hone

end Line

end Splitting.Anderson
