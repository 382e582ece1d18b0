import Splitting.Proofs.Real.Mixing

/-!
# Steps on affine maps

An affine map takes differences of points to differences of images, so the combination that cancels
the residual cancels the distance to a fixed point as well.
-/

namespace Splitting.Anderson

open LinearMap (adjoint)

variable {n : ℕ} {map : EuclideanSpace ℝ (Fin n) →ᵃ[ℝ] EuclideanSpace ℝ (Fin n)}

/-- The image of a point, and what it leaves of the point. -/
structure SampleOf (map : EuclideanSpace ℝ (Fin n) →ᵃ[ℝ] EuclideanSpace ℝ (Fin n))
    (a : Sample ℝ) : Prop where
  sized : a.Sized n
  point : ∃ v, vec n a.image = map v ∧ vec n a.residual = v - map v

/-- The linear part takes the difference of the points to the one of the images. -/
def Follows (map : EuclideanSpace ℝ (Fin n) →ᵃ[ℝ] EuclideanSpace ℝ (Fin n))
    (d : Sample ℝ) : Prop :=
  map.linear (vec n d.residual + vec n d.image) = vec n d.image

theorem SampleOf.map_eq {a : Sample ℝ} (h : SampleOf map a) :
    map (vec n a.residual + vec n a.image) = vec n a.image := by
  obtain ⟨v, himage, hresidual⟩ := h.point
  rw [hresidual, himage, sub_add_cancel]

theorem vec_of_sub? {a b d : Sample ℝ} (h : a.sub? b = some d) (n : ℕ) :
    vec n d.image = vec n a.image - vec n b.image ∧
      vec n d.residual = vec n a.residual - vec n b.residual := by
  obtain ⟨r, hr, h⟩ := Option.bind_eq_some_iff.mp h
  obtain ⟨f, hf, h⟩ := Option.bind_eq_some_iff.mp h
  cases h
  exact ⟨vec_sub? hf n, vec_sub? hr n⟩

theorem follows_of_sub? {a b d : Sample ℝ} (ha : SampleOf map a) (hb : SampleOf map b)
    (h : a.sub? b = some d) : Follows map d := by
  obtain ⟨himage, hresidual⟩ := vec_of_sub? h n
  have hlinear := map.linearMap_vsub (vec n a.residual + vec n a.image)
    (vec n b.residual + vec n b.image)
  rw [ha.map_eq, hb.map_eq, vsub_eq_sub, vsub_eq_sub] at hlinear
  rw [Follows, hresidual, himage, sub_add_sub_comm]
  exact hlinear

/-! ## The memory -/

structure KeepsTo (map : EuclideanSpace ℝ (Fin n) →ᵃ[ℝ] EuclideanSpace ℝ (Fin n))
    (s : State ℝ) : Prop where
  last : ∀ a, s.last = some a → SampleOf map a
  memory : ∀ d ∈ s.memory, Follows map d

theorem keepsTo_initial : KeepsTo map State.initial := ⟨nofun, nofun⟩

theorem KeepsTo.grown? {s : State ℝ} (h : KeepsTo map s) {size : ℕ} {a : Sample ℝ}
    (ha : SampleOf map a) {memory : List (Sample ℝ)} (hg : s.grown? size a = some memory) :
    ∀ d ∈ memory, Follows map d := by
  unfold State.grown? at hg
  split at hg
  · cases hg
    exact h.memory
  · rename_i b hb
    obtain ⟨d, hd, hg⟩ := Option.bind_eq_some_iff.mp hg
    cases hg
    exact forall_remember (follows_of_sub? ha (h.last b hb) hd) h.memory

theorem KeepsTo.judge {s : State ℝ} (h : KeepsTo map s) (norm : ℝ) :
    KeepsTo map (judge norm s).2 := by
  unfold Anderson.judge
  dsimp only
  split
  · exact ⟨h.last, h.memory⟩
  · split
    · exact ⟨h.last, h.memory⟩
    · exact ⟨nofun, nofun⟩

section Calls

variable [Spectral ℝ] {size : ℕ} {lambda epsZero : ℝ} {s t : State ℝ}

theorem KeepsTo.advance (h : KeepsTo map s) {a : Sample ℝ} (ha : SampleOf map a) {v : Array ℝ}
    (hadv : advance? size lambda epsZero a s = some (v, t)) : KeepsTo map t := by
  obtain ⟨hgrown, hlast, -⟩ := advance?_eq_some hadv
  refine ⟨fun b hb => ?_, h.grown? ha hgrown⟩
  rw [hlast] at hb
  cases hb
  exact ha

theorem KeepsTo.calls (h : KeepsTo map s) {calls : List (Call ℝ)}
    (hsamples : ∀ a, .advance a ∈ calls → SampleOf map a) {answers : List (Option (Array ℝ))}
    (hcalls : s.calls? size lambda epsZero calls = some (answers, t)) : KeepsTo map t :=
  State.calls?_induction (I := fun _ s => KeepsTo map s)
    (fun _ _ a _ _ ha hs hadv => hs.advance (hsamples a ha) hadv)
    (fun _ _ norm hs => hs.judge norm) [] h hcalls

end Calls

/-! ## The step -/

theorem linear_combine {memory : List (Sample ℝ)} (hm : ∀ d ∈ memory, Follows map d)
    (z : EuclideanSpace ℝ (Fin memory.length)) :
    map.linear (combine n Sample.residual memory z + combine n Sample.image memory z) =
      combine n Sample.image memory z := by
  simp only [combine_apply, ← Finset.sum_add_distrib, ← smul_add, map_sum, map_smul]
  exact Finset.sum_congr rfl fun i _ => congrArg (z i • ·) (hm _ (List.getElem_mem i.isLt))

theorem SampleOf.fixed {a : Sample ℝ} (ha : SampleOf map a) {memory : List (Sample ℝ)}
    (hm : ∀ d ∈ memory, Follows map d) {z : EuclideanSpace ℝ (Fin memory.length)}
    (hz : combine n Sample.residual memory z = vec n a.residual) :
    map (vec n a.image - combine n Sample.image memory z) =
      vec n a.image - combine n Sample.image memory z := by
  have hlinear := linear_combine hm z
  rw [hz] at hlinear
  set f := vec n a.image
  set g := vec n a.residual
  set y := combine n Sample.image memory z
  calc map (f - y) = map (-(g + y) +ᵥ (g + f)) := by
        rw [vadd_eq_add]
        congr 1
        abel
    _ = -map.linear (g + y) +ᵥ map (g + f) := by rw [map.map_vadd, map_neg]
    _ = f - y := by
        rw [hlinear, ha.map_eq, vadd_eq_add]
        abel

section Coefficients

variable [Spectral ℝ]

theorem combine_coefficients (hexact : ExactSpectrum) {epsZero : ℝ} (hzero : 0 ≤ epsZero)
    {memory : List (Sample ℝ)} (hm : ∀ d ∈ memory, d.Sized n)
    (hclear : ∀ e, Module.End.HasEigenvalue (normalMap n 0 memory) e → 0 < e →
      tolerance n epsZero 0 memory < e) {g gamma : Array ℝ}
    (h : coefficients? 0 epsZero memory g = some gamma) :
    combine n Sample.residual memory (vec memory.length gamma) =
      (LinearMap.range (combine n Sample.residual memory)).starProjection (vec n g) := by
  obtain ⟨w, hw, hvec⟩ := coefficients?_vec hexact hm h
  rw [penalty, zero_mul] at hw
  have hpseudo := hw.isPseudoInverse hzero le_rfl hclear
  have hgram : normalMap n 0 memory = adjoint (combine n Sample.residual memory) ∘ₗ
      adjoint (adjoint (combine n Sample.residual memory)) := by
    rw [normalMap_eq, zero_smul, add_zero, LinearMap.adjoint_adjoint]
  rw [hgram] at hpseudo
  have hprojection := hpseudo.starProjection_range_adjoint (vec n g)
  rw [LinearMap.adjoint_adjoint] at hprojection
  rw [hprojection, hvec]

/-- After any calls on samples of an affine map, a step without penalty that cuts off no positive
eigenvalue leads to a fixed point if the differences span the residual, so always if they span
everything. -/
theorem fixed_of_affine (hexact : ExactSpectrum) {epsZero : ℝ} (hzero : 0 ≤ epsZero) (size : ℕ)
    {calls : List (Call ℝ)} (hcalls : ∀ b, .advance b ∈ calls → SampleOf map b) {a : Sample ℝ}
    (ha : SampleOf map a) :
    ∃ answers s v t, State.initial.calls? size 0 epsZero calls = some (answers, s) ∧
      advance? size 0 epsZero a s = some (v, t) ∧ v.size = n ∧
      ((∀ e, Module.End.HasEigenvalue (normalMap n 0 t.memory) e → 0 < e →
          tolerance n epsZero 0 t.memory < e) →
        (vec n a.residual ∈
            Submodule.span ℝ ((fun d => vec n d.residual) '' {d | d ∈ t.memory}) →
          map (vec n v) = vec n v) ∧
        (Submodule.span ℝ ((fun d => vec n d.residual) '' {d | d ∈ t.memory}) = ⊤ →
          map (vec n v) = vec n v)) := by
  obtain ⟨answers, s, hs, hsized, -⟩ := State.calls?_total size 0 epsZero (initial_sized n)
    fun b hb => (hcalls b hb).sized
  obtain ⟨v, t, hadv, hsize, ht⟩ := advance?_total hsized size 0 epsZero ha.sized
  refine ⟨answers, s, v, t, hs, hadv, hsize, fun hclear => ?_⟩
  have hkeeps := (keepsTo_initial.calls hcalls hs).advance ha hadv
  obtain ⟨gamma, hgamma, hv⟩ := advance?_vec hsized ha.sized hadv
  have hcombine := combine_coefficients hexact hzero ht.memory hclear hgamma
  rw [← range_combine]
  have hfixed : vec n a.residual ∈ LinearMap.range (combine n Sample.residual t.memory) →
      map (vec n v) = vec n v := by
    intro hmem
    rw [Submodule.starProjection_eq_self_iff.mpr hmem] at hcombine
    rw [hv, ha.fixed hkeeps.memory hcombine]
  exact ⟨hfixed, fun htop => hfixed (htop ▸ Submodule.mem_top)⟩

end Coefficients

/-! ## Mirroring one entry -/

section Mirror

noncomputable def mirror : EuclideanSpace ℝ (Fin 2) →ᵃ[ℝ] EuclideanSpace ℝ (Fin 2) :=
  (linearOf 2 2 fun r c => if r = c then if r = 0 then -1 else 1 else 0).toAffineMap +
    AffineMap.const ℝ _ (vec 2 #[1, 0])

theorem mirror_vec (x y : ℝ) : mirror (vec 2 #[x, y]) = vec 2 #[1 - x, y] := by
  ext r
  fin_cases r
  · simp [mirror, linearOf_apply, Fin.sum_univ_two]
    ring
  · simp [mirror, linearOf_apply, Fin.sum_univ_two]

/-- What mirroring makes of `(x, y)`. -/
noncomputable def mirrored (x y : ℝ) : Sample ℝ := ⟨#[1 - x, y], #[x + x - 1, 0]⟩

theorem sampleOf_mirrored (x y : ℝ) : SampleOf mirror (mirrored x y) := by
  refine ⟨⟨rfl, rfl⟩, vec 2 #[x, y], (mirror_vec x y).symm, ?_⟩
  rw [mirror_vec]
  ext r
  fin_cases r
  · simp [mirrored]
    ring
  · simp [mirrored]

noncomputable def mirroredCalls : List (Call ℝ) :=
  [.advance (mirrored 0 1), .advance (mirrored 1 0)]

theorem mirror_fixed_of_affine :
    let _ : Spectral ℝ := .exact
    (∀ b, .advance b ∈ mirroredCalls → SampleOf mirror b) ∧ SampleOf mirror (mirrored (-1) 0) ∧
      ∃ answers s v t, State.initial.calls? 2 0 0 mirroredCalls = some (answers, s) ∧
        advance? 2 0 0 (mirrored (-1) 0) s = some (v, t) ∧ t.memory.length = 2 ∧
        (∀ e, Module.End.HasEigenvalue (normalMap 2 0 t.memory) e → 0 < e →
          tolerance 2 0 0 t.memory < e) ∧
        vec 2 (mirrored (-1) 0).residual ∈
          Submodule.span ℝ ((fun d => vec 2 d.residual) '' {d | d ∈ t.memory}) ∧
        mirror (vec 2 v) = vec 2 v := by
  let _ : Spectral ℝ := .exact
  have hsamples : ∀ b, .advance b ∈ mirroredCalls → SampleOf mirror b := by
    intro b hb
    simp only [mirroredCalls, List.mem_cons, Call.advance.injEq, List.not_mem_nil, or_false] at hb
    rcases hb with rfl | rfl <;> exact sampleOf_mirrored _ _
  obtain ⟨answers, s, v, t, hs, hadv, -, hfixed⟩ := fixed_of_affine exactSpectrum_exact
    (le_refl (0 : ℝ)) 2 hsamples (sampleOf_mirrored (-1) 0)
  obtain ⟨_, _, hs', -, hlen⟩ := State.calls?_total 2 (0 : ℝ) 0 (initial_sized 2)
    fun b hb => (hsamples b hb).sized
  rw [hs] at hs'
  cases hs'
  obtain ⟨o, o', rfl⟩ := List.length_eq_two.mp hlen
  have hremembers : Remembers 2 [mirrored 0 1, mirrored 1 0, mirrored (-1) 0] t :=
    (remembers_initial.calls two_pos hs).advance two_pos hadv
  have hclear : ∀ e, Module.End.HasEigenvalue (normalMap 2 0 t.memory) e → 0 < e →
      tolerance 2 0 0 t.memory < e := by
    intro e _ he
    rwa [tolerance, zero_mul]
  have hspan : vec 2 (mirrored (-1) 0).residual ∈
      Submodule.span ℝ ((fun d => vec 2 d.residual) '' {d | d ∈ t.memory}) := by
    have hpairs : List.Forall₂ (fun p d => p.2.sub? p.1 = some d)
        [(mirrored 0 1, mirrored 1 0), (mirrored 1 0, mirrored (-1) 0)] t.memory :=
      hremembers.memory
    obtain ⟨d, ds, -, hrest, hmemory⟩ := List.forall₂_cons_left_iff.mp hpairs
    obtain ⟨d', ds', hd', -, rfl⟩ := List.forall₂_cons_left_iff.mp hrest
    have hmultiple : vec 2 (mirrored (-1) 0).residual = (3 / 4 : ℝ) • vec 2 d'.residual := by
      rw [(vec_of_sub? hd' 2).2]
      ext r
      fin_cases r
      · simp [mirrored]
        norm_num
      · simp [mirrored]
    rw [hmultiple]
    exact Submodule.smul_mem _ _ (Submodule.subset_span ⟨d', by simp [hmemory], rfl⟩)
  exact ⟨hsamples, sampleOf_mirrored (-1) 0, _, s, v, t, hs, hadv, hremembers.length_memory, hclear,
    hspan, (hfixed hclear).1 hspan⟩

end Mirror

end Splitting.Anderson
