import VecDb.Quant.Kmeans
import VecDb.Base.Bytes

/-! # Product quantisation

A vector is cut into subvectors, and each is replaced by the number of a nearest centroid, in one
byte. Training keeps the number of centroids it was asked for also if it has fewer rows.
-/

namespace VecDb.Quant

open List Fallible

/-- The centroids of each subspace, with the number of them that encoding goes through. -/
structure PQCodebook (F : Type) where
  ksub : ℤ
  ds : ℕ
  centroids : List (List (List F))

variable {F D R : Type} [LinearOrder D] (K : Kernel F D R)

/-- The `j`th of the parts of `ds` numbers each. -/
def part (ds j : ℕ) (vec : List F) : List F :=
  (vec.drop (j * ds)).take ds

/-- The machine's `1 << nbits`. -/
def shifted (nbits : ℕ) : ℤ :=
  Int.bmod (2 ^ nbits) (2 ^ 64)

def trainPQ [Zero F] [Add F] [Mul F] (data : List F) (n d m nbits iters : ℕ) :
    Except Fault (PQCodebook F) :=
  if n = 0 then .error .emptyTraining
  else if m = 0 then .error .panic
  else if d % m ≠ 0 then .error .notDivisible
  else if data.length < n * d then .error .panic
  else if !(data.take (n * d)).all K.isFinite then .error .nonFinite
  else do
    let ds := d / m
    let ksub := shifted nbits
    let centroids ← (range m).mapM fun j =>
      K.kmeans ((range n).map fun i => part ds j (part d i data)) ds ksub iters (K.seed j)
    return ⟨ksub, ds, centroids⟩

namespace PQCodebook

def cents (cb : PQCodebook F) (j : ℕ) : List (List F) :=
  cb.centroids.getD j []

/-- The slice of centroid `q`; a slice of no columns is always in range. -/
def row (cb : PQCodebook F) (j q : ℕ) : Except Fault (List F) :=
  if cb.ds = 0 then .ok [] else index (cb.cents j) q

def encodePart (cb : PQCodebook F) (vec : List F) (j : ℕ) : Except Fault UInt8 :=
  if vec.length < (j + 1) * cb.ds then .error .panic
  else do
    let rows ← (range cb.ksub.toNat).mapM (cb.row j)
    return UInt8.ofNat (K.search (part cb.ds j vec) rows).1

def encode (cb : PQCodebook F) (vec : List F) : Except Fault (List UInt8) :=
  (range cb.centroids.length).mapM (cb.encodePart K vec)

/-- The subvectors that are put together. -/
def decode (cb : PQCodebook F) (code : List UInt8) : Except Fault (List (List F)) :=
  ((range cb.centroids.length).zip code).mapM fun p => cb.row p.1 p.2.toNat

end PQCodebook

/-- A centroid at minimal distance from `s`. -/
def Nearest (s : List F) (cents : List (List F)) (c : List F) : Prop :=
  c ∈ cents ∧ ∀ c' ∈ cents, K.dist s c ≤ K.dist s c'

/-- The first centroid at minimal distance is the one with the number `q`, and the search can find
it. -/
def First (s : List F) (cents : List (List F)) (q : ℕ) : Prop :=
  ∃ c, cents[q]? = some c ∧ (∀ c' ∈ cents, K.dist s c ≤ K.dist s c') ∧
    (∀ i < q, ∀ c', cents[i]? = some c' → K.dist s c < K.dist s c') ∧
    (q = 0 ∨ K.dist s c < K.maxDist)

variable {K} {s vec : List F} {cents : List (List F)} {cb : PQCodebook F} {q j : ℕ}

/-- The search ends at the first nearest centroid, or where it began if all are too far. -/
theorem search_spec : (∀ c ∈ cents, (K.search s cents).2 ≤ K.dist s c) ∧
    (K.search s cents = (0, K.maxDist) ∨
      ∃ c, cents[(K.search s cents).1]? = some c ∧ (K.search s cents).2 = K.dist s c ∧
        K.dist s c < K.maxDist ∧
        ∀ i < (K.search s cents).1, ∀ c', cents[i]? = some c' → K.dist s c < K.dist s c') := by
  -- the loop from its last step
  induction cents using reverseRecOn with
  | nil => exact ⟨nofun, .inl rfl⟩
  | append_singleton cents c ih =>
    have hstep : K.search s (cents ++ [c]) = if K.dist s c < (K.search s cents).2 then
        (cents.length, K.dist s c) else K.search s cents := by
      rw [Kernel.search, zipIdx_append, foldl_append, Nat.zero_add]
      rfl
    obtain ⟨hmin, hbest⟩ := ih
    have hmin' {d : D} (hd : d ≤ (K.search s cents).2) (hc : d ≤ K.dist s c) (c')
        (hc' : c' ∈ cents ++ [c]) : d ≤ K.dist s c' := by
      rcases mem_append.mp hc' with hc' | hc'
      · exact hd.trans (hmin c' hc')
      · exact mem_singleton.mp hc' ▸ hc
    rw [hstep]
    split
    · rename_i hc
      refine ⟨hmin' hc.le le_rfl, .inr ⟨c, by simp, rfl, ?_, fun i hi c' hc' => ?_⟩⟩
      · rcases hbest with h | ⟨b, -, hb, hlt, -⟩
        · rwa [h] at hc
        · exact (hc.trans_eq hb).trans hlt
      · rw [getElem?_append_left hi] at hc'
        exact hc.trans_le (hmin c' (mem_of_getElem? hc'))
    · rename_i hc
      refine ⟨hmin' le_rfl (not_lt.mp hc), hbest.imp_right ?_⟩
      rintro ⟨b, hb, hd, hlt, hfirst⟩
      have hq := (List.getElem?_eq_some_iff.mp hb).1
      refine ⟨b, (getElem?_append_left hq).trans hb, hd, hlt, fun i hi c' hc' => ?_⟩
      rw [getElem?_append_left (hi.trans hq)] at hc'
      exact hfirst i hi c' hc'

/-- The number that is left in a byte names a nearest centroid just if a byte has room for the
number of the first one. -/
theorem search_byte_iff :
    (∃ c, cents[(K.search s cents).1 % 256]? = some c ∧ Nearest K s cents c) ↔
      ∃ q < 256, First K s cents q := by
  obtain ⟨hmin, hs | ⟨b, hb, hd, hlt, hfirst⟩⟩ := @search_spec F D R _ K s cents
  · rw [hs] at hmin ⊢
    constructor
    · rintro ⟨c, hc, -, hmin⟩
      exact ⟨0, by decide, c, hc, hmin, nofun, .inl rfl⟩
    · rintro ⟨q, -, c, hc, hminc, -, rfl | hlt⟩
      · exact ⟨c, hc, mem_of_getElem? hc, hminc⟩
      · exact absurd (hmin c (mem_of_getElem? hc)) (not_le.mpr hlt)
  · rw [hd] at hmin
    generalize (K.search s cents).1 = q at hb hfirst ⊢
    constructor
    · rintro ⟨c, hc, -, hminc⟩
      rcases Nat.lt_or_ge q 256 with hq | hq
      · exact ⟨q, hq, b, hb, hmin, hfirst, .inr hlt⟩
      · exact absurd (hminc b (mem_of_getElem? hb)) (not_le.mpr (hfirst _ (by omega) c hc))
    · rintro ⟨q', hq', c, hc, hminc, hfirstc, -⟩
      -- both are the first nearest one
      obtain rfl : q = q' := by
        rcases Nat.lt_trichotomy q q' with h | h | h
        · exact absurd (hmin c (mem_of_getElem? hc)) (not_le.mpr (hfirstc q h b hb))
        · exact h
        · exact absurd (hminc b (mem_of_getElem? hb)) (not_le.mpr (hfirst q' h c hc))
      rw [Nat.mod_eq_of_lt hq']
      exact ⟨b, hb, mem_of_getElem? hb, hmin⟩

/-- What training gives, if it gives something. -/
structure Trained (cb : PQCodebook F) (n d m nbits : ℕ) : Prop where
  rows : n ≠ 0
  parts : m ≠ 0
  ds : cb.ds * m = d
  ksub : cb.ksub = shifted nbits
  nonneg : 0 ≤ cb.ksub
  pos : cb.ksub = 0 → cb.ds = 0
  length : cb.centroids.length = m
  shaped : ∀ j < m, Shaped cb.ds (min cb.ksub n).toNat (cb.cents j)

variable {data : List F} {n d m nbits iters : ℕ}

theorem length_part (h : (j + 1) * n ≤ vec.length) : (part n j vec).length = n := by
  rw [Nat.succ_mul] at h
  rw [part, length_take, length_drop]
  omega

theorem trained [Zero F] [Add F] [Mul F] (h : trainPQ K data n d m nbits iters = .ok cb) :
    Trained cb n d m nbits := by
  unfold trainPQ at h
  generalize hk : shifted nbits = ksub at h
  split_ifs at h with hn hm hd hlen hfin
  obtain ⟨centroids, hcents, h⟩ := bind_eq_ok.mp h
  obtain rfl := ok_eq_ok.mp h
  have hd : d / m * m = d := Nat.div_mul_cancel (Nat.dvd_of_mod_eq_zero (not_not.mp hd))
  have hall := mapM_eq_ok.mp hcents
  have hlength : centroids.length = m := by simpa using hall.length_eq.symm
  have hrows (j : ℕ) (hj : j < m) :
      ∀ r ∈ (range n).map (fun i => part (d / m) j (part d i data)), r.length = d / m := by
    intro r hr
    obtain ⟨i, hi, rfl⟩ := mem_map.mp hr
    have hrow : (part d i data).length = d := length_part
      ((Nat.mul_le_mul_right d (mem_range.mp hi)).trans (not_lt.mp hlen))
    refine length_part (hrow.symm ▸ ?_)
    exact (Nat.mul_comm _ _).trans_le ((Nat.mul_le_mul_left _ hj).trans_eq hd)
  have hkmeans (j : ℕ) (hj : j < m) : K.kmeans ((range n).map fun i =>
      part (d / m) j (part d i data)) (d / m) ksub iters (K.seed j) = .ok (centroids.getD j []) := by
    have h := hall.get (length_range.symm ▸ hj) (hlength.symm ▸ hj)
    simpa [getD_eq_getElem?_getD, hlength, hj] using h
  have hshape (j : ℕ) (hj : j < m) := shaped_kmeans (hrows j hj) (hkmeans j hj)
  simp only [length_map, length_range] at hshape
  obtain ⟨hnonneg, -, hpos⟩ := hshape 0 (Nat.pos_of_ne_zero hm)
  exact ⟨hn, hm, hd, hk.symm, hnonneg, fun (h0 : ksub = 0) => hpos (by omega), hlength,
    fun j hj => (hshape j hj).2.1⟩

theorem shifted_eq (h : 0 < shifted nbits) : shifted nbits = 2 ^ nbits := by
  rcases Nat.lt_trichotomy nbits 63 with hlt | rfl | hlt
  · have hsmall : 2 ^ nbits < 2 ^ 63 := Nat.pow_lt_pow_right (by decide) hlt
    have hcast : (2 : ℤ) ^ nbits = (2 ^ nbits : ℕ) := (Int.natCast_pow 2 nbits).symm
    unfold shifted
    generalize (2 : ℤ) ^ nbits = x at hcast ⊢
    generalize 2 ^ nbits = y at hcast hsmall
    exact Int.bmod_eq_of_le (by omega) (by omega)
  · exact absurd h (by decide)
  · have hdvd : ((2 ^ 64 : ℕ) : ℤ) ∣ 2 ^ nbits := pow_dvd_pow 2 hlt
    exact absurd (Int.dvd_iff_bmod_eq_zero.mp hdvd) h.ne'

theorem mapM_row (hds : cb.ds ≠ 0) (h : (cb.cents j).length = q) :
    (range q).mapM (cb.row j) = .ok (cb.cents j) := by
  subst h
  refine mapM_eq_ok.mpr (forall₂_iff_get.mpr ⟨length_range, fun i hi hi' => ?_⟩)
  rw [PQCodebook.row, if_neg hds, index_eq_ok]
  simp [hi']

theorem mapM_row_ne_ok (hds : cb.ds ≠ 0) (h : (cb.cents j).length < q) {rows : List (List F)} :
    (range q).mapM (cb.row j) ≠ .ok rows := by
  intro hrows
  have hall := mapM_eq_ok.mp hrows
  have hlt : (cb.cents j).length < (range q).length := h.trans_eq length_range.symm
  have hget := hall.get hlt (hlt.trans_eq hall.length_eq)
  rw [PQCodebook.row, if_neg hds, index_eq_ok] at hget
  simp at hget

theorem roundTrip_iff {ε α β γ : Type} {enc : α → Except ε β} {dec : α × β → Except ε γ}
    {P : α → γ → Prop} {l : List α} : (∃ code out, l.mapM enc = .ok code ∧
      (l.zip code).mapM dec = .ok out ∧ List.Forall₂ P l out) ↔
        ∀ x ∈ l, ∃ b c, enc x = .ok b ∧ dec (x, b) = .ok c ∧ P x c := by
  simp only [mapM_eq_ok]
  induction l with
  | nil => exact ⟨fun _ => nofun, fun _ => ⟨[], [], .nil, .nil, .nil⟩⟩
  | cons x l ih =>
    rw [forall_mem_cons, ← ih]
    constructor
    · rintro ⟨code, out, henc, hdec, hP⟩
      obtain ⟨b, code, hb, hencs, rfl⟩ := forall₂_cons_left_iff.mp henc
      obtain ⟨c, out, hc, hdecs, rfl⟩ := forall₂_cons_left_iff.mp hdec
      obtain ⟨hx, hP⟩ := forall₂_cons.mp hP
      exact ⟨⟨b, c, hb, hc, hx⟩, code, out, hencs, hdecs, hP⟩
    · rintro ⟨⟨b, c, hb, hc, hx⟩, code, out, henc, hdec, hP⟩
      exact ⟨b :: code, c :: out, .cons hb henc, .cons hc hdec, .cons hx hP⟩

theorem nearest_nil_iff (h : ∀ c ∈ cents, c.length = 0) :
    Nearest K s cents [] ↔ ∃ q < 256, First K s cents q := by
  constructor
  · rintro ⟨hmem, hmin⟩
    obtain ⟨c, cents, rfl⟩ := exists_cons_of_ne_nil (ne_nil_of_mem hmem)
    obtain rfl : c = [] := length_eq_zero_iff.mp (h c mem_cons_self)
    exact ⟨0, by decide, [], rfl, hmin, nofun, .inl rfl⟩
  · rintro ⟨q, -, c, hc, hmin, -⟩
    obtain rfl : c = [] := length_eq_zero_iff.mp (h c (mem_of_getElem? hc))
    exact ⟨mem_of_getElem? hc, hmin⟩

theorem Trained.part_iff (ht : Trained cb n d m nbits) (hvec : vec.length = d) (hj : j < m) :
    (∃ b c, cb.encodePart K vec j = .ok b ∧ cb.row j b.toNat = .ok c ∧
      Nearest K (part cb.ds j vec) (cb.cents j) c) ↔
        (d = 0 ∨ 2 ^ nbits ≤ n) ∧ ∃ q < 256, First K (part cb.ds j vec) (cb.cents j) q := by
  have hlong : ¬vec.length < (j + 1) * cb.ds := by
    rw [hvec, ← ht.ds, Nat.mul_comm cb.ds, not_lt]
    exact Nat.mul_le_mul_right _ hj
  obtain ⟨hlen, hall⟩ := ht.shaped j hj
  unfold PQCodebook.encodePart
  rw [if_neg hlong]
  by_cases hds : cb.ds = 0
  · have hd : d = 0 := by rw [← ht.ds, hds, Nat.zero_mul]
    have hrow (q : ℕ) : cb.row j q = .ok [] := if_pos hds
    obtain ⟨rows, hrows⟩ : ∃ rows, (range cb.ksub.toNat).mapM (cb.row j) = .ok rows :=
      (exists_forall₂ fun q _ => ⟨[], hrow q⟩).imp fun _ => mapM_eq_ok.mpr
    rw [← nearest_nil_iff (hds ▸ hall), hrows]
    constructor
    · rintro ⟨b, c, -, hc, hnear⟩
      obtain rfl := ok_eq_ok.mp ((hrow _).symm.trans hc)
      exact ⟨.inl hd, hnear⟩
    · rintro ⟨-, hnear⟩
      exact ⟨_, [], rfl, hrow _, hnear⟩
  · have hd : d ≠ 0 := by
      rw [← ht.ds]
      exact Nat.mul_ne_zero hds ht.parts
    have hpos : 0 < cb.ksub := lt_of_le_of_ne ht.nonneg fun h => hds (ht.pos h.symm)
    have hksub : cb.ksub = (2 ^ nbits : ℕ) := by
      rw [ht.ksub, shifted_eq (ht.ksub ▸ hpos), Int.natCast_pow]
      rfl
    rw [hksub] at hlen ⊢
    rw [Int.toNat_natCast]
    by_cases hn : 2 ^ nbits ≤ n
    · rw [mapM_row hds (by omega), ← search_byte_iff]
      constructor
      · rintro ⟨b, c, hb, hc, hnear⟩
        obtain rfl := ok_eq_ok.mp hb
        rw [PQCodebook.row, if_neg hds, index_eq_ok, UInt8.toNat_ofNat'] at hc
        exact ⟨.inr hn, c, hc, hnear⟩
      · rintro ⟨-, c, hc, hnear⟩
        refine ⟨_, c, rfl, ?_, hnear⟩
        rwa [PQCodebook.row, if_neg hds, index_eq_ok, UInt8.toNat_ofNat']
    · constructor
      · rintro ⟨b, c, hb, -⟩
        obtain ⟨rows, hrows, -⟩ := bind_eq_ok.mp hb
        exact absurd hrows (mapM_row_ne_ok hds (by omega))
      · rintro ⟨h, -⟩
        exact absurd h (not_or.mpr ⟨hd, hn⟩)

/-- A codebook that training accepts gives back a nearest centroid in each subspace just if there
were as many rows as centroids, and the first nearest centroid to each part of the vector is
numbered by a byte and no farther than a distance can be. -/
theorem decode_encode_nearest_iff [Zero F] [Add F] [Mul F]
    (ht : trainPQ K data n d m nbits iters = .ok cb) (hvec : vec.length = d) :
    (∃ code out, cb.encode K vec = .ok code ∧ cb.decode code = .ok out ∧
      List.Forall₂ (fun j c => Nearest K (part (d / m) j vec) (cb.cents j) c) (range m) out) ↔
        (d = 0 ∨ 2 ^ nbits ≤ n) ∧
          ∀ j < m, ∃ q < 256, First K (part (d / m) j vec) (cb.cents j) q := by
  have ht := trained ht
  have hds : d / m = cb.ds := by rw [← ht.ds, Nat.mul_div_cancel _ (Nat.pos_of_ne_zero ht.parts)]
  unfold PQCodebook.encode PQCodebook.decode
  rw [ht.length, hds, roundTrip_iff]
  constructor
  · intro h
    have h' (j : ℕ) (hj : j < m) := (ht.part_iff hvec hj).mp (h j (mem_range.mpr hj))
    exact ⟨(h' 0 (Nat.pos_of_ne_zero ht.parts)).1, fun j hj => (h' j hj).2⟩
  · rintro ⟨hn, h⟩ j hj
    have hj := mem_range.mp hj
    exact (ht.part_iff hvec hj).mpr ⟨hn, h j hj⟩

/-- Whole numbers, where each cluster has one row and the generator takes the last one. -/
def wholeKernel : Kernel ℤ ℤ Unit where
  dist s c := ((s.zipWith (· - ·) c).map fun x => x * x).sum
  maxDist := 100
  belowAll := -1
  inv _ := 1
  isFinite _ := true
  seed _ := ()
  intn _ _ := (0, ())
  weighted dist2 _ := (dist2.length, ())

def wholeCodebook : PQCodebook ℤ :=
  ⟨2, 1, [[[0], [4]], [[8], [3]]]⟩

theorem decode_encode_nearest_two : trainPQ wholeKernel [0, 8, 4, 3] 2 2 2 1 3 = .ok wholeCodebook ∧
    ∃ code out, wholeCodebook.encode wholeKernel [3, 7] = .ok code ∧
      wholeCodebook.decode code = .ok out ∧ List.Forall₂ (fun j c =>
        Nearest wholeKernel (part (2 / 2) j [3, 7]) (wholeCodebook.cents j) c) (range 2) out := by
  have ht : trainPQ wholeKernel [0, 8, 4, 3] 2 2 2 1 3 = .ok wholeCodebook := rfl
  refine ⟨ht, (decode_encode_nearest_iff ht rfl).mpr ⟨.inr (by decide), fun j hj => ?_⟩⟩
  obtain rfl | rfl : j = 0 ∨ j = 1 := by omega
  · refine ⟨1, by decide, [4], rfl, by decide, fun i hi c' hc' => ?_, .inr (by decide)⟩
    obtain rfl : i = 0 := by omega
    cases hc'
    decide
  · exact ⟨0, by decide, [8], rfl, by decide, nofun, .inl rfl⟩

/-- Training on one row accepts two centroids and gives one; encoding looks for the second. -/
theorem encode_few_rows_panics :
    trainPQ wholeKernel [3] 1 1 1 1 1 = .ok ⟨2, 1, [[[3]]]⟩ ∧
      PQCodebook.encode wholeKernel ⟨2, 1, [[[3]]]⟩ [3] = .error .panic :=
  ⟨rfl, rfl⟩

end VecDb.Quant
