import Splitting.Proofs.Real.PseudoInverse
import Splitting.Proofs.Order

/-!
# Vectors over labels

A stacked vector lists one value for each label, which is a block and a place in it. The kernels
work label by label or add up over all labels, so in exact arithmetic the order of the labels
changes nothing but the order of the result.
-/

namespace Splitting

/-! ## Kernels -/

section Reading

variable {κ : Type} {L L' : List κ} {f g : κ → ℝ} {x x' y y' : Array ℝ}

/-- The values at the labels of a list, in its order. -/
def reading (L : List κ) (f : κ → ℝ) : Array ℝ := (L.map f).toArray

@[simp] theorem size_reading (L : List κ) (f : κ → ℝ) : (reading L f).size = L.length := by
  simp [reading]

theorem reading_append (L L' : List κ) (f : κ → ℝ) :
    reading (L ++ L') f = reading L f ++ reading L' f := by simp [reading]

theorem getD_reading {i : ℕ} {k : κ} (h : L[i]? = some k) (f : κ → ℝ) :
    (reading L f).getD i 0 = f k := by simp [reading, h]

theorem sum_places {F : ℕ → ℝ} (h : ∀ i k, L[i]? = some k → F i = f k) :
    ∑ i ∈ Finset.range L.length, F i = (L.map f).sum := by
  rw [← Fin.sum_univ_eq_sum_range, ← Fin.sum_univ_fun_getElem]
  exact Finset.sum_congr rfl fun i _ => h i _ (List.getElem?_eq_getElem i.isLt)

theorem scale_reading (a : ℝ) (L : List κ) (f : κ → ℝ) :
    Vec.scale a (reading L f) = reading L fun k => a * f k := by
  simp [Vec.scale, reading, Function.comp_def]

theorem addScaled?_reading (a : ℝ) (L : List κ) (f g : κ → ℝ) :
    Vec.addScaled? a (reading L f) (reading L g) = some (reading L fun k => g k + a * f k) := by
  simp [Vec.addScaled?, reading, List.zipWith_map, List.zipWith_self]

theorem norm_reading (L : List κ) (f : κ → ℝ) :
    Vec.norm (reading L f) = √(L.map fun k => f k ^ 2).sum := by
  have hsum := foldl_add_sq (L.map f) 0
  rw [zero_add, List.map_map] at hsum
  unfold Vec.norm reading
  rw [List.foldl_toArray]
  exact congrArg Real.sqrt hsum

theorem dot?_reading (L : List κ) (f g : κ → ℝ) :
    Vec.dot? (reading L f) (reading L g) = some (L.map fun k => f k * g k).sum := by
  have hplaces := sum_places (L := L) (f := fun k => f k * g k) fun i k hk =>
    congrArg₂ (· * ·) (getD_reading hk f) (getD_reading hk g)
  unfold Vec.dot?
  rw [if_pos (by simp), size_reading, ← hplaces]
  exact congrArg some (sumBelow_eq L.length _)

/-- The vectors list the same values, each in the order of its own labels. -/
def Matched (L L' : List κ) (x x' : Array ℝ) : Prop := ∃ f, x = reading L f ∧ x' = reading L' f

theorem Matched.scale (a : ℝ) (h : Matched L L' x x') :
    Matched L L' (Vec.scale a x) (Vec.scale a x') := by
  obtain ⟨f, rfl, rfl⟩ := h
  exact ⟨_, scale_reading a L f, scale_reading a L' f⟩

theorem Matched.addScaled? (a : ℝ) (hx : Matched L L' x x') (hy : Matched L L' y y') :
    Option.Rel (Matched L L') (Vec.addScaled? a x y) (Vec.addScaled? a x' y') := by
  obtain ⟨f, rfl, rfl⟩ := hx
  obtain ⟨g, rfl, rfl⟩ := hy
  rw [addScaled?_reading, addScaled?_reading]
  exact .some ⟨_, rfl, rfl⟩

theorem Matched.sub? (hy : Matched L L' y y') (hx : Matched L L' x x') :
    Option.Rel (Matched L L') (Vec.sub? y x) (Vec.sub? y' x') := hx.addScaled? (-1) hy

theorem matched_zeros (h : L.length = L'.length) :
    Matched L L' (Vec.zeros L.length) (Vec.zeros L.length) := by
  refine ⟨fun _ => 0, ?_, ?_⟩
  · simp [reading, Vec.zeros]
  · simp [reading, Vec.zeros, h]

section Perm

variable (hL : L.Perm L')
include hL

theorem sum_labels_perm (f : κ → ℝ) : (L.map f).sum = (L'.map f).sum := (hL.map f).sum_eq

theorem Matched.norm_eq (h : Matched L L' x x') : Vec.norm x = Vec.norm x' := by
  obtain ⟨f, rfl, rfl⟩ := h
  rw [norm_reading, norm_reading, sum_labels_perm hL]

theorem Matched.dot?_eq (hx : Matched L L' x x') (hy : Matched L L' y y') :
    Vec.dot? x y = Vec.dot? x' y' := by
  obtain ⟨f, rfl, rfl⟩ := hx
  obtain ⟨g, rfl, rfl⟩ := hy
  rw [dot?_reading, dot?_reading, sum_labels_perm hL]

end Perm

end Reading

/-! ## Blocks -/

/-- The places of the blocks in a list, each as its block and its place there. -/
def labels (dims is : List ℕ) : List (ℕ × ℕ) :=
  is.flatMap fun l => (List.range (dims.getD l 0)).map fun c => (l, c)

section Labels

variable {dims is js : List ℕ}

theorem labels_cons (dims : List ℕ) (l : ℕ) (is : List ℕ) :
    labels dims (l :: is) =
      ((List.range (dims.getD l 0)).map fun c => (l, c)) ++ labels dims is := List.flatMap_cons

theorem labels_perm (h : is.Perm js) : (labels dims is).Perm (labels dims js) :=
  h.flatMap_right _

theorem length_labels (dims is : List ℕ) : (labels dims is).length = total (pick is dims) := by
  induction is with
  | nil => rfl
  | cons l is ih =>
    rw [labels_cons, List.length_append, ih, List.length_map, List.length_range]
    cases hl : dims[l]? with
    | none => rw [pick_skip hl, List.getD_eq_getElem?_getD, hl, Option.getD_none, Nat.zero_add]
    | some n =>
      rw [pick_cons hl, total_cons, List.getD_eq_getElem?_getD, hl, Option.getD_some]

def places (dims : List ℕ) : List (ℕ × ℕ) := labels dims (List.range dims.length)

theorem length_places (dims : List ℕ) : (places dims).length = total dims := by
  rw [places, length_labels, pick_range]

theorem places_perm (his : is.Perm (List.range dims.length)) :
    (places dims).Perm (labels dims is) := labels_perm his.symm

def block (dims : List ℕ) (f : ℕ × ℕ → ℝ) (l : ℕ) : Array ℝ :=
  reading ((List.range (dims.getD l 0)).map fun c => (l, c)) f

@[simp] theorem size_block (dims : List ℕ) (f : ℕ × ℕ → ℝ) (l : ℕ) :
    (block dims f l).size = dims.getD l 0 := by simp [block]

open Solver (stack stack_cons)

theorem stack_map_block (dims is : List ℕ) (f : ℕ × ℕ → ℝ) :
    stack (is.map (block dims f)) = reading (labels dims is) f := by
  induction is with
  | nil => rfl
  | cons l is ih => rw [List.map_cons, stack_cons, labels_cons, reading_append, ih, block]

theorem cut_reading (his : ∀ l ∈ is, l < dims.length) (f : ℕ × ℕ → ℝ) :
    Solver.cut (reading (labels dims is) f) (pick is dims) 0 = is.map (block dims f) := by
  have hdims : pick is dims = (is.map (block dims f)).map Array.size := by
    rw [List.map_map]
    refine pick_eq_map fun l hl => ?_
    rw [List.getElem?_eq_getElem (his l hl), Function.comp_apply, size_block,
      List.getD_eq_getElem]
  rw [← stack_map_block, hdims, Solver.cut_stack]

theorem cut_places (dims : List ℕ) (f : ℕ × ℕ → ℝ) :
    Solver.cut (reading (places dims) f) dims 0 = (List.range dims.length).map (block dims f) := by
  have hlt : ∀ l ∈ List.range dims.length, l < dims.length := fun l hl => List.mem_range.mp hl
  have hcut := cut_reading hlt f
  rwa [pick_range] at hcut

noncomputable def valueAt (xs : List (Array ℝ)) (k : ℕ × ℕ) : ℝ := (xs.getD k.1 #[]).getD k.2 0

theorem eq_block {f : ℕ × ℕ → ℝ} {x : Array ℝ} {l : ℕ} (hsize : x.size = dims.getD l 0)
    (hf : ∀ i, f (l, i) = x.getD i 0) : x = block dims f l := by
  refine Array.ext (by rw [size_block, hsize]) fun i hi hi' => ?_
  have hplace : ((List.range (dims.getD l 0)).map fun c => (l, c))[i]? = some (l, i) := by
    rw [← hsize]
    simp [hi]
  rw [← getD_of_lt hi, ← getD_of_lt hi', block, getD_reading hplace, hf]

theorem getElem?_eq_block {xs : List (Array ℝ)} (h : xs.map Array.size = dims) {l : ℕ}
    (hl : l < dims.length) : xs[l]? = some (block dims (valueAt xs) l) := by
  obtain ⟨x, hx⟩ : ∃ x, xs[l]? = some x :=
    ⟨_, List.getElem?_eq_getElem (by simpa [← h] using hl)⟩
  rw [hx]
  refine congrArg some (eq_block (by simp [← h, hx]) fun i => ?_)
  rw [valueAt, List.getD_eq_getElem?_getD, hx, Option.getD_some]

theorem stack_pick {xs : List (Array ℝ)} (h : xs.map Array.size = dims)
    (his : ∀ l ∈ is, l < dims.length) :
    stack (pick is xs) = reading (labels dims is) (valueAt xs) := by
  rw [pick_eq_map fun l hl => getElem?_eq_block h (his l hl), stack_map_block]

theorem stack_eq_reading {xs : List (Array ℝ)} (h : xs.map Array.size = dims) :
    stack xs = reading (places dims) (valueAt xs) := by
  have hstack := stack_pick h fun l hl => List.mem_range.mp hl
  have hlen : dims.length = xs.length := by rw [← h, List.length_map]
  rwa [hlen, pick_range, ← hlen] at hstack

end Labels

/-! ## The coupling -/

namespace Projection

noncomputable def coeffAt (parts : List (Operator ℝ × ℕ)) (r : ℕ) (k : ℕ × ℕ) : ℝ :=
  (parts[k.1]?.map fun part => part.1.coeff r k.2).getD 0

variable {parts : List (Operator ℝ × ℕ)} {m : ℕ} {is js : List ℕ}

theorem PartsLinear.pick (h : PartsLinear parts m) (is : List ℕ) :
    PartsLinear (pick is parts) m := by
  intro g n hg
  obtain ⟨l, -, hl⟩ := List.mem_filterMap.mp hg
  exact h g n (List.mem_of_getElem? hl)

theorem total_pick (is : List ℕ) (parts : List (Operator ℝ × ℕ)) :
    total ((Splitting.pick is parts).map Prod.snd) = (labels (parts.map Prod.snd) is).length := by
  rw [length_labels, map_pick]

theorem stackCoeff_pick {r i : ℕ} {k : ℕ × ℕ}
    (h : (labels (parts.map Prod.snd) is)[i]? = some k) :
    stackCoeff (Splitting.pick is parts) r i = coeffAt parts r k := by
  induction is generalizing i with
  | nil => simp [labels] at h
  | cons l is ih =>
    rw [labels_cons] at h
    cases hl : parts[l]? with
    | none =>
      rw [pick_skip hl]
      exact ih (by simpa [hl] using h)
    | some part =>
      obtain ⟨g, n⟩ := part
      have hn : (parts.map Prod.snd).getD l 0 = n := by simp [hl]
      rw [hn] at h
      rw [pick_cons hl]
      rcases Nat.lt_or_ge i n with hi | hi
      · rw [List.getElem?_append_left (by simpa using hi)] at h
        obtain rfl : (l, i) = k := by simpa [hi] using h
        simp [stackCoeff_of_lt hi, coeffAt, hl]
      · obtain ⟨j, rfl⟩ := Nat.exists_eq_add_of_le hi
        rw [List.getElem?_append_right (by simp)] at h
        rw [stackCoeff_add]
        exact ih (by simpa using h)

theorem addCoupled?_labels (h : PartsLinear parts m) (is : List ℕ) (f : ℕ × ℕ → ℝ) {y : Array ℝ}
    (hy : y.size = m) :
    ∃ z, addCoupled? (reading (labels (parts.map Prod.snd) is) f) (Splitting.pick is parts) 0 y =
        some z ∧ z.size = m ∧ ∀ r < m, z.getD r 0 = y.getD r 0 +
          ((labels (parts.map Prod.snd) is).map fun k => coeffAt parts r k * f k).sum := by
  have hsize : 0 + total ((Splitting.pick is parts).map Prod.snd) =
      (reading (labels (parts.map Prod.snd) is) f).size := by
    rw [total_pick, size_reading, Nat.zero_add]
  obtain ⟨z, hz, hs⟩ := addCoupled?_total (h.pick is).fit hsize.le hy
  refine ⟨z, hz, hs, fun r hr => ?_⟩
  rw [addCoupled?_getD (h.pick is) hsize.le hy hz hr, total_pick]
  refine congrArg _ (sum_places fun i k hk => ?_)
  rw [stackCoeff_pick hk, Nat.zero_add, getD_reading hk]

theorem subTransposed?_labels (h : PartsLinear parts m) (is : List ℕ) (f : ℕ × ℕ → ℝ)
    {w : Array ℝ} (hw : w.size = m) :
    subTransposed? w (reading (labels (parts.map Prod.snd) is) f) (Splitting.pick is parts) 0 #[] =
      some (reading (labels (parts.map Prod.snd) is) fun k =>
        f k - ∑ r ∈ Finset.range m, coeffAt parts r k * w.getD r 0) := by
  have hsize : 0 + total ((Splitting.pick is parts).map Prod.snd) =
      (reading (labels (parts.map Prod.snd) is) f).size := by
    rw [total_pick, size_reading, Nat.zero_add]
  obtain ⟨z, hz, hs⟩ := subTransposed?_total (h.pick is).fit hw hsize.le #[]
  obtain ⟨-, hnew⟩ := subTransposed?_getD (h.pick is) hw hsize.le hz
  rw [hz]
  rw [total_pick, Array.size_empty, Nat.zero_add] at hs
  refine congrArg some (Array.ext (by rw [hs, size_reading]) fun i hi hi' => ?_)
  have hk := List.getElem?_eq_getElem (hs ▸ hi)
  have hi := hnew i (by rw [total_pick]; omega)
  rw [Array.size_empty, Nat.zero_add] at hi
  rw [← getD_of_lt (by omega), ← getD_of_lt hi', hi, getD_reading hk, getD_reading hk]
  exact congrArg _ (Finset.sum_congr rfl fun r _ => by rw [stackCoeff_pick hk])

theorem gram?_labels (h : PartsLinear parts m) {gram : Matrix ℝ}
    (hg : gram? (Splitting.pick is parts) m = some gram) {r c : ℕ} (hr : r < m) (hc : c < m) :
    gram.entry r c = ((labels (parts.map Prod.snd) is).map fun k =>
      coeffAt parts r k * coeffAt parts c k).sum := by
  rw [gram?_entry (h.pick is) hg hr hc, total_pick]
  exact sum_places fun i k hk => by rw [stackCoeff_pick hk, stackCoeff_pick hk]

section Perm

variable (h : PartsLinear parts m) (hperm : is.Perm js)
include h hperm

theorem addCoupled?_perm {x x' : Array ℝ}
    (hx : Matched (labels (parts.map Prod.snd) is) (labels (parts.map Prod.snd) js) x x')
    {y : Array ℝ} (hy : y.size = m) :
    ∃ z, z.size = m ∧ addCoupled? x (Splitting.pick is parts) 0 y = some z ∧
      addCoupled? x' (Splitting.pick js parts) 0 y = some z := by
  obtain ⟨f, rfl, rfl⟩ := hx
  obtain ⟨z, hz, hs, he⟩ := addCoupled?_labels h is f hy
  obtain ⟨z', hz', hs', he'⟩ := addCoupled?_labels h js f hy
  obtain rfl : z = z' := by
    refine eq_of_vec_eq hs hs' (vec_ext fun r => ?_)
    rw [vec_apply, he r r.isLt, he' r r.isLt, sum_labels_perm (labels_perm hperm)]
  exact ⟨z, hs, hz, hz'⟩

theorem gram?_perm : gram? (Splitting.pick is parts) m = gram? (Splitting.pick js parts) m := by
  obtain ⟨a, ha, hsa⟩ := gram?_total (h.pick is).fit
  obtain ⟨b, hb, hsb⟩ := gram?_total (h.pick js).fit
  rw [ha, hb]
  refine congrArg some (Matrix.eq_of_entry (hsa.trans hsb.symm) fun r c hcell => ?_)
  rw [hsa] at hcell
  obtain ⟨hrc, hc⟩ := Shape.mem_cells_packed.mp hcell
  have hr : r < m := by omega
  rw [gram?_labels h ha hr hc, gram?_labels h hb hr hc, sum_labels_perm (labels_perm hperm)]

end Perm

/-! ## Projecting and measuring -/

/-- The same projection with the blocks `is`, in that order. -/
def arranged (is : List ℕ) (p : Projection ℝ) : Projection ℝ :=
  { p with parts := Splitting.pick is p.parts }

/-- Linear operators for blocks of these dimensions, if there are any. -/
structure Over (p : Projection ℝ) (dims : List ℕ) : Prop where
  linear : PartsLinear p.parts p.rhs.size
  shape : p.pinv.shape = .packed p.rhs.size
  dims : p.parts ≠ [] → p.parts.map Prod.snd = dims

/-- The vectors of the two projections list the same values, and the work vectors are the same. -/
structure SameWork (L L' : List (ℕ × ℕ)) (m : ℕ) (a b : Array ℝ × Scratch ℝ) : Prop where
  fst : Matched L L' a.1 b.1
  snd : a.2 = b.2
  sized : a.2.Sized m

section Arranged

variable {p : Projection ℝ} {dims : List ℕ} (h : p.Over dims) (hperm : is.Perm js)
include h hperm

omit h in
theorem active_arranged : (p.arranged is).active = (p.arranged js).active := by
  have hparts := (hperm.filterMap fun i => p.parts[i]?).isEmpty_eq
  unfold active arranged Splitting.pick
  rw [hparts]

omit hperm in
theorem correct?_matched (hne : p.parts ≠ []) {gap multiplier y y' : Array ℝ}
    (hg : gap.size = p.rhs.size) (hm : multiplier.size = p.rhs.size)
    (hy : Matched (labels dims is) (labels dims js) y y') :
    Option.Rel (SameWork (labels dims is) (labels dims js) p.rhs.size)
      ((p.arranged is).correct? gap multiplier y) ((p.arranged js).correct? gap multiplier y') := by
  obtain ⟨w, hw, hsw⟩ := p.pinv.mulAdd?_total 1 0 (x := gap) (y := multiplier)
    (hg.trans (congrArg Shape.cols h.shape).symm) (hm.trans (congrArg Shape.rows h.shape).symm)
  have hsw : w.size = p.rhs.size := hsw.trans (congrArg Shape.rows h.shape)
  obtain ⟨f, rfl, rfl⟩ := hy
  obtain rfl := h.dims hne
  unfold correct?
  simp only [arranged, hw, Option.bind_eq_bind, Option.bind_some,
    subTransposed?_labels h.linear _ f hsw]
  exact .some ⟨⟨_, rfl, rfl⟩, rfl, hg, hsw⟩

omit h hperm in
theorem ne_nil_of_active (ha : (p.arranged is).active = true) : p.parts ≠ [] := by
  intro hnil
  simp [active, arranged, hnil] at ha

theorem coupled_matched (ha : (p.arranged is).active = true) {x x' y : Array ℝ}
    (hx : Matched (labels dims is) (labels dims js) x x') (hy : y.size = p.rhs.size) :
    ∃ z, z.size = p.rhs.size ∧ addCoupled? x (p.arranged is).parts 0 y = some z ∧
      addCoupled? x' (p.arranged js).parts 0 y = some z := by
  obtain rfl := h.dims (ne_nil_of_active ha)
  exact addCoupled?_perm h.linear hperm hx hy

theorem gap?_matched (ha : (p.arranged is).active = true) {x x' : Array ℝ}
    (hx : Matched (labels dims is) (labels dims js) x x') :
    ∃ z, z.size = p.rhs.size ∧ (p.arranged is).gap? x = some z ∧
      (p.arranged js).gap? x' = some z :=
  coupled_matched h hperm ha hx (by simp [arranged])

variable {s : Scratch ℝ} (hs : s.Sized p.rhs.size) {x x' : Array ℝ}
  (hx : Matched (labels dims is) (labels dims js) x x')
include hs hx

theorem project?_matched :
    Option.Rel (SameWork (labels dims is) (labels dims js) p.rhs.size)
      ((p.arranged is).project? s x) ((p.arranged js).project? s x') := by
  unfold project?
  rw [← active_arranged hperm]
  split
  · rename_i ha
    obtain ⟨gap, hg, he, he'⟩ := gap?_matched h hperm ha hx
    rw [he, he']
    exact correct?_matched h (ne_nil_of_active ha) hg hs.2 hx
  · exact .some ⟨hx, rfl, hs⟩

theorem residual?_matched :
    Option.Rel (fun a b => a = b ∧ a.2.Sized p.rhs.size) ((p.arranged is).residual? s x)
      ((p.arranged js).residual? s x') := by
  unfold residual?
  rw [← active_arranged hperm]
  split
  · rename_i ha
    obtain ⟨gap, hg, he, he'⟩ := gap?_matched h hperm ha hx
    rw [he, he']
    exact .some ⟨rfl, hg, hs.2⟩
  · exact .some ⟨rfl, hs⟩

theorem rangeResidual?_matched :
    Option.Rel (fun a b => a = b ∧ a.2.Sized p.rhs.size) ((p.arranged is).rangeResidual? s x)
      ((p.arranged js).rangeResidual? s x') := by
  unfold rangeResidual?
  rw [← active_arranged hperm]
  split
  · rename_i ha
    obtain ⟨gap, hg, he, he'⟩ := coupled_matched h hperm ha hx (y := Vec.scale 0 s.gap)
      (by simp [hs.1])
    simp only [he, he', Option.bind_eq_bind, Option.bind_some]
    refine option_rel_bind (correct?_matched h (ne_nil_of_active ha) hg hs.2 hx) ?_
    rintro ⟨r, t⟩ ⟨r', t'⟩ ⟨hr, rfl, ht⟩
    exact .some ⟨congrArg (·, t) (hr.norm_eq (labels_perm hperm)), ht⟩
  · exact .some ⟨congrArg (·, s) (hx.norm_eq (labels_perm hperm)), hs⟩

end Arranged

theorem ofCouplings?_matched [Spectral ℝ] {gs : List (Operator ℝ)} {dims : List ℕ} {rhs : Array ℝ}
    (hlen : gs.length = dims.length ∨ gs = []) (hlin : PartsLinear (gs.zip dims) rhs.size)
    (hperm : is.Perm (List.range dims.length)) (epsZero : ℝ) :
    Option.Rel (fun a b => a.Over dims ∧ a.rhs = rhs ∧ a = a.arranged (List.range dims.length) ∧
        b = a.arranged is) (ofCouplings? gs dims rhs epsZero)
      (ofCouplings? (Splitting.pick is gs) (Splitting.pick is dims) rhs epsZero) := by
  obtain ⟨p, hp, hparts, hrhs, hshape⟩ := ofCouplings?_of_partsFit hlin.fit epsZero
  have hzip : (Splitting.pick is gs).zip (Splitting.pick is dims) =
      Splitting.pick is (gs.zip dims) := by
    rcases hlen with hlen | rfl
    · have hlt : ∀ i ∈ is, i < dims.length := fun i hi => lt_of_mem_perm hperm hi
      exact pick_zip (fun i hi => hlen ▸ hlt i hi) hlt
    · simp
  have hrange : Splitting.pick (List.range dims.length) (gs.zip dims) = gs.zip dims := by
    rcases hlen with hlen | rfl
    · have := pick_range (gs.zip dims)
      rwa [List.length_zip, hlen, Nat.min_self] at this
    · simp
  have hgram := gram?_perm hlin hperm
  have hempty : (Splitting.pick is (gs.zip dims)).isEmpty = (gs.zip dims).isEmpty :=
    (hperm.filterMap fun i => (gs.zip dims)[i]?).isEmpty_eq.trans (congrArg List.isEmpty hrange)
  have hsame : ofCouplings? (Splitting.pick is gs) (Splitting.pick is dims) rhs epsZero =
      some (p.arranged is) := by
    unfold ofCouplings? at hp ⊢
    dsimp only at hp ⊢
    rw [hzip, hempty]
    rw [hrange] at hgram
    split at hp
    · rename_i h0
      rw [if_pos h0]
      cases hp
      rfl
    · rename_i h0
      rw [if_neg h0, hgram]
      obtain ⟨gram, hg, hp⟩ := Option.bind_eq_some_iff.mp hp
      cases hp
      rw [hg]
      rfl
  rw [hp, hsame]
  refine .some ⟨⟨?_, ?_, fun hne => ?_⟩, hrhs, ?_, rfl⟩
  · rw [hparts, hrhs]
    exact hlin
  · rw [hrhs]
    exact hshape
  · rw [hparts]
    rcases hlen with hlen | rfl
    · exact List.map_snd_zip hlen.ge
    · exact absurd hparts (by simpa using hne)
  · unfold arranged
    rw [hparts, hrange, ← hparts]

end Projection

namespace Solver

structure SameMeasure (L L' : List (ℕ × ℕ)) (m : ℕ) (a b : Measure ℝ) : Prop where
  image : Matched L L' a.image b.image
  residual : Matched L L' a.residual b.residual
  primal : a.primal = b.primal
  dual : a.dual = b.dual
  scratch : a.scratch = b.scratch
  sized : a.scratch.Sized m

theorem measure?_matched {p : Projection ℝ} {dims is js : List ℕ} (h : p.Over dims)
    (hperm : is.Perm js) (rho : ℝ) {s : Projection.Scratch ℝ} (hs : s.Sized p.rhs.size)
    {v v' x x' : Array ℝ} (hv : Matched (labels dims is) (labels dims js) v v')
    (hx : Matched (labels dims is) (labels dims js) x x') :
    Option.Rel (SameMeasure (labels dims is) (labels dims js) p.rhs.size)
      (measure? (p.arranged is) rho s v x) (measure? (p.arranged js) rho s v' x') := by
  unfold measure?
  refine option_rel_bind ((hx.scale _).sub? hv) fun r r' hr => ?_
  refine option_rel_bind (Projection.project?_matched h hperm hs hr) ?_
  rintro ⟨y, s₁⟩ ⟨y', s₁'⟩ ⟨hy, rfl, hs₁⟩
  refine option_rel_bind (hx.sub? hy) fun g g' hg => ?_
  refine option_rel_bind (hv.sub? hg) fun f f' hf => ?_
  refine option_rel_bind (Projection.residual?_matched h hperm hs₁ hx) ?_
  rintro ⟨a, s₂⟩ _ ⟨rfl, hs₂⟩
  refine option_rel_bind (hv.sub? hx) fun l l' hl => ?_
  refine option_rel_bind (Projection.rangeResidual?_matched h hperm hs₂ (hl.scale _)) ?_
  rintro ⟨b, s₃⟩ _ ⟨rfl, hs₃⟩
  exact .some ⟨hf, hg, rfl, rfl, rfl, hs₃⟩

end Solver

end Splitting
