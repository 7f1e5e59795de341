import VecDb.Base.Lowest

/-! # Binary heaps

The heap operations of Go's standard library on a slice, for an order in which elements may tie.
They permute the elements and keep every element below its parent.
-/

namespace VecDb.Heap

open List Bool

structure Ranks {α : Type*} (above : α → α → Bool) : Prop where
  asymm : ∀ {x y}, above x y = true → above y x = false
  trans : ∀ {x y z}, above x y = false → above y z = false → above x z = false

section Ranks

variable {α : Type*} {above : α → α → Bool} {x y z : α}

theorem Ranks.irrefl (hr : Ranks above) (x : α) : above x x = false := by
  rcases h : above x x with _ | _
  · rfl
  · exact h.symm.trans (hr.asymm h)

theorem Ranks.of_above (hr : Ranks above) (hxy : above x y = true) (hzy : above z y = false) :
    above z x = false := by
  rcases h : above z x with _ | _
  · rfl
  · rw [hr.trans (hr.asymm h) hzy] at hxy
    cases hxy

/-- Comparing values of a linear order ranks the elements. -/
theorem ranks_of_rank {β : Type*} [LinearOrder β] (rank : α → β)
    (h : ∀ x y, above x y = true ↔ rank x < rank y) : Ranks above where
  asymm hxy := by
    rw [← not_eq_true, h, not_lt]
    exact ((h _ _).mp hxy).le
  trans hxy hyz := by
    rw [← not_eq_true, h, not_lt] at *
    exact hyz.trans hxy

end Ranks

variable {α : Type*} [Inhabited α] (above : α → α → Bool)

def get (l : List α) (i : ℕ) : α := l.getD i default

def swap (l : List α) (i j : ℕ) : List α := (l.set i (get l j)).set j (get l i)

def parent (j : ℕ) : ℕ := (j - 1) / 2

def up : ℕ → List α → ℕ → List α
  | 0, l, _ => l
  | fuel + 1, l, j =>
    if parent j = j then l
    else if above (get l j) (get l (parent j)) then up fuel (swap l (parent j) j) (parent j)
    else l

/-- The child that belongs further up, of those among the first `n` elements. -/
def child (l : List α) (i n : ℕ) : ℕ :=
  if 2 * i + 2 < n ∧ above (get l (2 * i + 2)) (get l (2 * i + 1)) = true then 2 * i + 2
  else 2 * i + 1

/-- Move the element in place `i` down to where it belongs among the first `n` elements. -/
def down : ℕ → List α → ℕ → ℕ → List α
  | 0, l, _, _ => l
  | fuel + 1, l, i, n =>
    if n ≤ 2 * i + 1 then l
    else if above (get l (child above l i n)) (get l i) then
      down fuel (swap l i (child above l i n)) (child above l i n) n
    else l

def push (l : List α) (x : α) : List α := up above (l.length + 1) (l ++ [x]) l.length

def replace (l : List α) (x : α) : List α := down above l.length (l.set 0 x) 0 l.length

def pop (l : List α) : α × List α :=
  let n := l.length - 1
  let l := down above n (swap l 0 n) 0 n
  (get l n, l.take n)

def Ordered (l : List α) (n : ℕ) : Prop :=
  ∀ j, 0 < j → j < n → above (get l j) (get l (parent j)) = false

variable {above} {l all : List α} {i j k n fuel : ℕ} {x : α}

theorem get_eq (h : i < l.length) : get l i = l[i] := by simp [get, h]

theorem parent_lt (h : 0 < j) : parent j < j := by
  unfold parent
  omega

section Swap

theorem length_swap : (swap l i j).length = l.length := by simp [swap]

theorem get_swap (hi : i < l.length) (hj : j < l.length) (k : ℕ) :
    get (swap l i j) k = if k = j then get l i else if k = i then get l j else get l k := by
  unfold get swap
  by_cases hkj : k = j
  · subst hkj
    simp [hj, get]
  · by_cases hki : k = i
    · subst hki
      simp [hkj, Ne.symm hkj, hi, get]
    · simp [hkj, Ne.symm hkj, hki, Ne.symm hki]

theorem swap_perm (hi : i < l.length) (hj : j < l.length) : (swap l i j).Perm l := by
  have h := set_set_perm hi hj
  simpa [swap, get, hi, hj] using h

end Swap

theorem up_perm (hj : j < l.length) : (up above fuel l j).Perm l := by
  induction fuel generalizing l j with
  | zero => exact .refl l
  | succ fuel ih =>
    rw [up]
    split
    · exact .refl l
    · rename_i hne
      split
      · have hp : parent j < l.length := by
          unfold parent
          omega
        exact (ih (by rwa [length_swap])).trans (swap_perm hp hj)
      · exact .refl l

theorem lt_child : i < child above l i n := by
  unfold child
  split <;> omega

theorem child_lt (hn : ¬ n ≤ 2 * i + 1) : child above l i n < n := by
  unfold child
  split <;> omega

theorem parent_child : parent (child above l i n) = i := by
  unfold parent child
  split <;> omega

theorem down_perm (hn : n ≤ l.length) : (down above fuel l i n).Perm l := by
  induction fuel generalizing l i with
  | zero => exact .refl l
  | succ fuel ih =>
    rw [down]
    split
    · exact .refl l
    · rename_i hlt
      split
      · have hc := @child_lt _ _ above l i n hlt
        have hi : i < l.length := by omega
        refine (ih (by rwa [length_swap])).trans (swap_perm hi (by omega))
      · exact .refl l

theorem get_down (hn : n ≤ l.length) {k : ℕ} (hk : n ≤ k) :
    get (down above fuel l i n) k = get l k := by
  induction fuel generalizing l i with
  | zero => rfl
  | succ fuel ih =>
    rw [down]
    split
    · rfl
    · rename_i hlt
      split
      · have hc := @child_lt _ _ above l i n hlt
        rw [ih (by rwa [length_swap]), get_swap (by omega) (by omega), if_neg (by omega),
          if_neg (by omega)]
      · rfl

/-- No element is above its parent, except perhaps in place `j`, and the children of `j` are not
above the parent of `j`. -/
structure UpOrdered (above : α → α → Bool) (l : List α) (n j : ℕ) : Prop where
  others : ∀ k, 0 < k → k < n → k ≠ j → above (get l k) (get l (parent k)) = false
  grand : ∀ k, 0 < k → k < n → parent k = j → 0 < j →
    above (get l k) (get l (parent j)) = false

/-- No element is above its parent, except perhaps the children of `i`, and these are not above
the parent of `i`. -/
structure DownOrdered (above : α → α → Bool) (l : List α) (n i : ℕ) : Prop where
  others : ∀ k, 0 < k → k < n → parent k ≠ i → above (get l k) (get l (parent k)) = false
  grand : ∀ k, 0 < k → k < n → parent k = i → 0 < i →
    above (get l k) (get l (parent i)) = false

theorem push_perm (l : List α) (x : α) : (push above l x).Perm (x :: l) := by
  refine (up_perm ?_).trans perm_append_comm
  simp

theorem get_append_left {m : List α} (h : i < l.length) : get (l ++ m) i = get l i := by
  simp [get, getElem?_append_left h]

theorem replace_perm (hl : 0 < l.length) (x : α) : (replace above l x).Perm (x :: l.tail) := by
  refine (down_perm (by simp)).trans ?_
  rcases l with _ | ⟨y, l⟩
  · cases hl
  · exact .refl _

theorem get_set_zero (h : 0 < i) : get (l.set 0 x) i = get l i := by
  simp [get, getElem?_set_ne (Nat.ne_of_lt h)]

variable (hr : Ranks above)
include hr

theorem UpOrdered.step (h : UpOrdered above l n j) (hj : 0 < j) (hjn : j < n)
    (hn : n ≤ l.length) (hab : above (get l j) (get l (parent j)) = true) :
    UpOrdered above (swap l (parent j) j) n (parent j) := by
  have hp := parent_lt hj
  have hget := get_swap (l := l) (i := parent j) (j := j) (by omega) (by omega)
  -- the old parent is in order with its own parent
  have hup : 0 < parent j → above (get l (parent j)) (get l (parent (parent j))) = false :=
    fun hpos => h.others _ hpos (by omega) (by omega)
  constructor
  · intro k hk hkn hkp
    rw [hget, hget, if_neg hkp]
    have hpk := parent_lt hk
    by_cases hkj : k = j
    · subst hkj
      rw [if_pos rfl, if_neg (by omega), if_pos rfl]
      exact hr.asymm hab
    · rw [if_neg hkj]
      by_cases hchild : parent k = j
      · rw [if_pos hchild]
        exact h.grand k hk hkn hchild hj
      · rw [if_neg hchild]
        by_cases hsib : parent k = parent j
        · rw [if_pos hsib]
          have := h.others k hk hkn hkj
          rw [hsib] at this
          exact hr.of_above hab this
        · rw [if_neg hsib]
          exact h.others k hk hkn hkj
  · intro k hk hkn hkp hpos
    have hpp := parent_lt hpos
    rw [hget, hget, if_neg (show parent (parent j) ≠ j by omega),
      if_neg (show parent (parent j) ≠ parent j by omega)]
    by_cases hkj : k = j
    · rw [if_pos hkj]
      exact hup hpos
    · have hpk := parent_lt hk
      rw [if_neg hkj, if_neg (by omega)]
      have := h.others k hk hkn hkj
      rw [hkp] at this
      exact hr.trans this (hup hpos)

theorem UpOrdered.up (h : UpOrdered above l n j) (hjn : j < n)
    (hn : n ≤ l.length) (hf : j < fuel) : Ordered above (up above fuel l j) n := by
  induction fuel generalizing l j with
  | zero => cases hf
  | succ fuel ih =>
    rw [Heap.up]
    split
    · rename_i hroot
      have hj : j = 0 := by
        rcases Nat.eq_zero_or_pos j with h0 | hpos
        · exact h0
        · have := parent_lt hpos
          omega
      exact fun k hk hkn => h.others k hk hkn (by omega)
    · rename_i hroot
      have hj : 0 < j := by
        rcases Nat.eq_zero_or_pos j with h0 | hpos
        · exact absurd (by rw [h0, parent]) hroot
        · exact hpos
      have hp := parent_lt hj
      split
      · rename_i hab
        exact ih (h.step hr hj hjn hn hab) (by omega) (by rwa [length_swap]) (by omega)
      · rename_i hab
        intro k hk hkn
        by_cases hkj : k = j
        · subst hkj
          exact eq_false_iff.mpr hab
        · exact h.others k hk hkn hkj

theorem child_top {k : ℕ} (hk : 0 < k) (hkn : k < n) (hki : parent k = i) :
    above (get l k) (get l (child above l i n)) = false := by
  have hcases : k = 2 * i + 1 ∨ k = 2 * i + 2 := by
    unfold parent at hki
    omega
  unfold child
  split
  · rename_i hc
    rcases hcases with rfl | rfl
    · exact hr.asymm hc.2
    · exact hr.irrefl _
  · rename_i hc
    rcases hcases with rfl | rfl
    · exact hr.irrefl _
    · simpa [hkn] using hc

theorem DownOrdered.step (h : DownOrdered above l n i) (hlt : ¬ n ≤ 2 * i + 1)
    (hn : n ≤ l.length) (hab : above (get l (child above l i n)) (get l i) = true) :
    DownOrdered above (swap l i (child above l i n)) n (child above l i n) := by
  have hc := @child_lt _ _ above l i n hlt
  have hpc := @parent_child _ _ above l i n
  have hic := @lt_child _ _ above l i n
  have htop : ∀ k, 0 < k → k < n → parent k = i →
      above (get l k) (get l (child above l i n)) = false :=
    fun k hk hkn hki => child_top hr hk hkn hki
  generalize child above l i n = c at *
  have hget := get_swap (l := l) (i := i) (j := c) (by omega) (by omega)
  constructor
  · intro k hk hkn hkc
    have hpk := parent_lt hk
    rw [hget, hget, if_neg hkc]
    by_cases hkeq : k = c
    · subst hkeq
      rw [if_pos rfl, if_pos hpc]
      exact hr.asymm hab
    · rw [if_neg hkeq]
      by_cases hki : k = i
      · subst hki
        rw [if_pos rfl, if_neg (by omega)]
        exact h.grand c (by omega) hc hpc hk
      · rw [if_neg hki]
        by_cases hpi : parent k = i
        · rw [if_pos hpi]
          exact htop k hk hkn hpi
        · rw [if_neg hpi]
          exact h.others k hk hkn hpi
  · intro k hk hkn hkc _
    have hpk := parent_lt hk
    rw [hget, hget, hpc, if_neg (by omega), if_neg (by omega), if_neg (by omega), if_pos rfl]
    have := h.others k hk hkn (by omega)
    rwa [hkc] at this

theorem DownOrdered.down (h : DownOrdered above l n i) (hn : n ≤ l.length)
    (hf : n ≤ fuel + i) : Ordered above (down above fuel l i n) n := by
  induction fuel generalizing l i with
  | zero =>
    intro k hk hkn
    have := parent_lt hk
    exact h.others k hk hkn (by omega)
  | succ fuel ih =>
    rw [Heap.down]
    split
    · rename_i hle
      intro k hk hkn
      refine h.others k hk hkn fun hki => ?_
      unfold parent at hki
      omega
    · rename_i hlt
      split
      · rename_i hab
        refine ih (h.step hr hlt hn hab) (by rwa [length_swap]) ?_
        unfold child
        split <;> omega
      · rename_i hab
        intro k hk hkn
        by_cases hki : parent k = i
        · rw [hki]
          exact hr.trans (child_top hr hk hkn hki) (Bool.eq_false_iff.mpr hab)
        · exact h.others k hk hkn hki

theorem Ordered.push (h : Ordered above l l.length) (x : α) :
    Ordered above (push above l x) (push above l x).length := by
  rw [(push_perm l x).length_eq, length_cons]
  refine UpOrdered.up hr ⟨fun k hk hkn hne => ?_, fun k hk hkn hki hpos => ?_⟩ (Nat.lt_succ_self _)
    (by simp) (Nat.lt_succ_self _)
  · have := parent_lt hk
    rw [get_append_left (by omega), get_append_left (by omega)]
    exact h k hk (by omega)
  · have := parent_lt hk
    omega

theorem Ordered.replace (h : Ordered above l l.length) (hl : 0 < l.length)
    (x : α) : Ordered above (replace above l x) (replace above l x).length := by
  have hlen : (Heap.replace above l x).length = l.length := by
    rw [(replace_perm hl x).length_eq, length_cons, length_tail]
    omega
  rw [hlen]
  refine DownOrdered.down hr ⟨fun k hk hkn hne => ?_, fun _ _ _ _ hpos => (nomatch hpos)⟩ (by simp)
    (by simp)
  rw [get_set_zero hk, get_set_zero (Nat.pos_of_ne_zero hne)]
  exact h k hk hkn

theorem Ordered.root (h : Ordered above l n) (hi : i < n) : above (get l i) (get l 0) = false := by
  induction i using Nat.strongRecOn with
  | ind i ih =>
    rcases Nat.eq_zero_or_pos i with rfl | hpos
    · exact hr.irrefl _
    · have hp := parent_lt hpos
      exact hr.trans (h i hpos hi) (ih _ hp (by omega))

theorem Ordered.root_mem (h : Ordered above l l.length) {y : α} (hy : y ∈ l) :
    above y (get l 0) = false := by
  obtain ⟨i, hi, rfl⟩ := getElem_of_mem hy
  have := h.root hr hi
  rwa [get_eq hi] at this

theorem pop_spec (h : Ordered above l l.length) (hl : 0 < l.length) :
    (pop above l).1 = get l 0 ∧ ((pop above l).1 :: (pop above l).2).Perm l ∧
      Ordered above (pop above l).2 (pop above l).2.length := by
  have hlast : l.length - 1 < l.length := by omega
  have hget := get_swap hl hlast
  have hn : l.length - 1 ≤ (swap l 0 (l.length - 1)).length := by
    rw [length_swap]
    omega
  have hperm : (down above (l.length - 1) (swap l 0 (l.length - 1)) 0 (l.length - 1)).Perm l :=
    (down_perm hn).trans (swap_perm hl hlast)
  have hord : Ordered above (down above (l.length - 1) (swap l 0 (l.length - 1)) 0 (l.length - 1))
      (l.length - 1) := by
    refine DownOrdered.down hr ⟨fun k hk hkn hne => ?_, fun _ _ _ _ hpos => (nomatch hpos)⟩ hn
      (by omega)
    have hp := parent_lt hk
    rw [hget, hget, if_neg (by omega), if_neg (by omega), if_neg (by omega), if_neg hne]
    exact h k hk (by omega)
  have hlen := hperm.length_eq
  have hroot : get (down above (l.length - 1) (swap l 0 (l.length - 1)) 0 (l.length - 1))
      (l.length - 1) = get l 0 := by
    rw [get_down hn (le_refl _), hget, if_pos rfl]
  unfold pop
  dsimp only
  generalize down above (l.length - 1) (swap l 0 (l.length - 1)) 0 (l.length - 1) = d at *
  refine ⟨hroot, ?_, ?_⟩
  · refine List.Perm.trans ?_ hperm
    have hd : d.take (l.length - 1) ++ [get d (l.length - 1)] = d := by
      rw [get_eq (by omega), take_append_getElem, take_of_length_le (by omega)]
    nth_rw 3 [← hd]
    exact (perm_append_singleton _ _).symm
  · have htake : ∀ k < l.length - 1, get (d.take (l.length - 1)) k = get d k := by
      intro k hk
      simp [get, getElem?_take_of_lt hk]
    intro k hk hkn
    have hp := parent_lt hk
    rw [length_take] at hkn
    rw [htake k (by omega), htake _ (by omega)]
    exact hord k hk (by omega)

/-! ## The lowest elements -/

/-- Offer an element to a heap that keeps the `k` lowest ones. -/
def offer (above : α → α → Bool) (k : ℕ) (l : List α) (x : α) : List α :=
  if l.length < k then push above l x
  else if above (get l 0) x then replace above l x
  else l

def drainAux (above : α → α → Bool) : ℕ → List α → List α → List α
  | 0, _, out => out
  | n + 1, l, out => drainAux above n (pop above l).2 ((pop above l).1 :: out)

/-- Empty the heap into a list with the lowest element first. -/
def drain (above : α → α → Bool) (l : List α) : List α := drainAux above l.length l []

/-- The heap holds `k` lowest elements of a list, or all of them. -/
structure Keeps (above : α → α → Bool) (k : ℕ) (all l : List α) : Prop where
  ordered : Ordered above l l.length
  length : l.length = min k all.length
  lowest : ∃ rest, (l ++ rest).Perm all ∧ ∀ x ∈ l, ∀ y ∈ rest, above x y = false

omit hr in
theorem keeps_nil (k : ℕ) : Keeps above k [] [] :=
  ⟨fun _ _ h => (nomatch h), by simp, [], .refl _, fun _ h => (nomatch h)⟩

theorem Keeps.offer (hk : 0 < k) (h : Keeps above k all l) (x : α) :
    Keeps above k (x :: all) (offer above k l x) := by
  obtain ⟨rest, hperm, hlow⟩ := h.lowest
  have hlen := h.length
  have hlen' := hperm.length_eq
  rw [length_append] at hlen'
  unfold Heap.offer
  split
  · -- there is room, so nothing was left out so far
    obtain rfl : rest = [] := eq_nil_of_length_eq_zero (by omega)
    rw [append_nil] at hperm
    refine ⟨h.ordered.push hr x, ?_, [], ?_, fun _ _ _ hy => nomatch hy⟩
    · rw [(push_perm l x).length_eq, length_cons, length_cons]
      omega
    · rw [append_nil]
      exact (push_perm l x).trans (hperm.cons x)
  · rename_i hfull
    have hpos : 0 < l.length := by omega
    have hmem : get l 0 ∈ l := by
      rw [get_eq hpos]
      exact getElem_mem hpos
    split
    · -- the root leaves, and everything left out is not below it
      rename_i hab
      have hreplace := @replace_perm _ _ above l hpos x
      have hl : get l 0 :: l.tail = l := by
        rcases l with _ | ⟨y, l⟩
        · cases hpos
        · rfl
      refine ⟨h.ordered.replace hr hpos x, ?_, get l 0 :: rest, ?_, ?_⟩
      · rw [hreplace.length_eq, length_cons, length_cons, length_tail]
        omega
      · calc replace above l x ++ get l 0 :: rest
          _ |>.Perm (x :: l.tail ++ get l 0 :: rest) := hreplace.append_right _
          _ |>.Perm (x :: (get l 0 :: l.tail ++ rest)) := .cons x perm_middle
          _ |>.Perm (x :: all) := by rw [hl]; exact hperm.cons x
      · intro y hy z hz
        have hyz : above y (get l 0) = false := by
          rcases mem_cons.mp (hreplace.mem_iff.mp hy) with rfl | hy
          · exact hr.asymm hab
          · exact h.ordered.root_mem hr (mem_of_mem_tail hy)
        rcases mem_cons.mp hz with rfl | hz
        · exact hyz
        · exact hr.trans hyz (hlow _ hmem z hz)
    · rename_i hab
      refine ⟨h.ordered, ?_, x :: rest, ?_, ?_⟩
      · rw [length_cons]
        omega
      · exact perm_middle.trans (hperm.cons x)
      · intro y hy z hz
        rcases mem_cons.mp hz with rfl | hz
        · exact hr.trans (h.ordered.root_mem hr hy) (eq_false_iff.mpr hab)
        · exact hlow y hy z hz

theorem keeps_foldl (hk : 0 < k) (xs : List α) (h : Keeps above k all l) :
    Keeps above k (xs.reverse ++ all) (xs.foldl (offer above k) l) := by
  induction xs generalizing all l with
  | nil => exact h
  | cons x xs ih =>
    rw [foldl_cons, reverse_cons, append_assoc]
    exact ih (h.offer hr hk x)

theorem drainAux_spec (h : Ordered above l l.length) {out : List α}
    (hout : out.Pairwise fun x y => above x y = false)
    (hlow : ∀ x ∈ l, ∀ y ∈ out, above x y = false) :
    (drainAux above l.length l out).Perm (l ++ out) ∧
      (drainAux above l.length l out).Pairwise fun x y => above x y = false := by
  induction hn : l.length generalizing l out with
  | zero =>
    obtain rfl := eq_nil_of_length_eq_zero hn
    exact ⟨.refl _, hout⟩
  | succ n ih =>
    obtain ⟨hroot, hperm, hord⟩ := pop_spec hr h (by omega)
    have hlen := hperm.length_eq
    rw [length_cons] at hlen
    have hmem : ∀ y ∈ (pop above l).2, y ∈ l := fun y hy =>
      hperm.mem_iff.mp (mem_cons_of_mem _ hy)
    have hfirst : (pop above l).1 ∈ l := hperm.mem_iff.mp mem_cons_self
    have hlow' : ∀ y ∈ (pop above l).2, ∀ z ∈ (pop above l).1 :: out, above y z = false := by
      intro y hy z hz
      rcases mem_cons.mp hz with rfl | hz
      · rw [hroot]
        exact h.root_mem hr (hmem y hy)
      · exact hlow y (hmem y hy) z hz
    obtain ⟨hp, hs⟩ := ih hord (pairwise_cons.mpr ⟨hlow _ hfirst, hout⟩) hlow' (by omega)
    rw [drainAux]
    exact ⟨hp.trans (perm_middle.trans (hperm.append_right out)), hs⟩

theorem drain_spec (h : Ordered above l l.length) :
    (drain above l).Perm l ∧ (drain above l).Pairwise fun x y => above x y = false := by
  have := @drainAux_spec _ _ above l hr h [] .nil fun _ _ _ hy => nomatch hy
  rwa [append_nil] at this

omit hr in
theorem Keeps.perm {all' : List α} (h : Keeps above k all l) (hperm : all.Perm all') :
    Keeps above k all' l := by
  obtain ⟨rest, hrest, hlow⟩ := h.lowest
  exact ⟨h.ordered, by rw [h.length, hperm.length_eq], rest, hrest.trans hperm, hlow⟩

theorem Keeps.merge {m chunk others : List α} (hl : Keeps above k chunk l)
    (hm : Keeps above k (l ++ others) m) : Keeps above k (chunk ++ others) m := by
  classical
  obtain ⟨out, hout, hlow⟩ := hl.lowest
  obtain ⟨rest, hrest, hlow'⟩ := hm.lowest
  have hl' := hl.length
  have hm' := hm.length
  have hlen := hout.length_eq
  rw [length_append] at hlen hm'
  refine ⟨hm.ordered, by rw [length_append]; omega, rest ++ out, ?_, ?_⟩
  · calc m ++ (rest ++ out)
      _ |>.Perm (m ++ rest ++ out) := by rw [append_assoc]
      _ |>.Perm (l ++ others ++ out) := hrest.append_right out
      _ |>.Perm (l ++ out ++ others) := by
        rw [append_assoc, append_assoc]
        exact (perm_append_comm).append_left l
      _ |>.Perm (chunk ++ others) := hout.append_right others
  · intro x hx y hy
    rcases mem_append.mp hy with hy | hy
    · exact hlow' x hx y hy
    · by_contra hxy
      rw [not_eq_false] at hxy
      -- everything the first heap kept is below `x`, so `x` has no place in the second
      have habove : ∀ z ∈ l, above x z = true := by
        intro z hz
        by_contra hxz
        rw [hr.trans (eq_false_iff.mpr hxz) (hlow z hz y hy)] at hxy
        cases hxy
      have hsub : l.Subperm m := by
        refine subperm_ext_iff.mpr fun z hz => ?_
        have hz' : z ∉ rest := fun hz' => by
          have := hlow' x hx z hz'
          rw [habove z hz] at this
          cases this
        have hcount := hrest.count_eq z
        rw [count_append, count_append, count_eq_zero.mpr hz'] at hcount
        omega
      have hpos := length_pos_of_mem hy
      have hperm := hsub.perm_of_length_le (by omega)
      have := habove x (hperm.mem_iff.mpr hx)
      rw [hr.irrefl] at this
      cases this

theorem keeps_flatten {chunks heaps : List (List α)} {m others : List α}
    (h : List.Forall₂ (Keeps above k) chunks heaps)
    (hm : Keeps above k (heaps.flatten ++ others) m) :
    Keeps above k (chunks.flatten ++ others) m := by
  induction h generalizing others with
  | nil => exact hm
  | @cons chunk heap chunks heaps hkeeps _ ih =>
    rw [flatten_cons, append_assoc] at hm ⊢
    have hmerged := (hkeeps.merge hr hm).perm (perm_append_comm_assoc chunk _ others)
    exact (ih hmerged).perm (perm_append_comm_assoc _ chunk others)

theorem Keeps.lowest_drain {β : Type*} [LinearOrder β] {rank : α → β}
    (habove : ∀ x y, above x y = true ↔ rank y < rank x) (h : Keeps above k all l)
    (hnodup : all.Nodup) (hinj : ∀ x ∈ all, ∀ y ∈ all, rank x = rank y → x = y) :
    Lowest rank {x | x ∈ all} k (drain above l) := by
  obtain ⟨hperm, hsorted⟩ := drain_spec hr h.ordered
  obtain ⟨rest, hrest, hlow⟩ := h.lowest
  have hle : ∀ {x y}, above x y = false → rank x ≤ rank y := fun hxy =>
    not_lt.mp fun hlt => false_ne_true (hxy.symm.trans ((habove _ _).mpr hlt))
  have hmem : ∀ x ∈ drain above l, x ∈ all := fun x hx =>
    hrest.mem_iff.mp (mem_append_left _ (hperm.mem_iff.mp hx))
  have hlen := h.length
  have hnodup' := hrest.nodup_iff.mpr hnodup
  refine ⟨?_, hmem, ?_, ?_⟩
  · have hdrain := hperm.nodup_iff.mpr (hnodup'.sublist (sublist_append_left l rest))
    refine (hsorted.and hdrain).imp_of_mem fun hx hy hxy => ?_
    exact lt_of_le_of_ne (hle hxy.1) fun heq => hxy.2 (hinj _ (hmem _ hx) _ (hmem _ hy) heq)
  · rw [hperm.length_eq]
    omega
  · intro x hx hxd
    have hxl : x ∉ l := fun hxl => hxd (hperm.mem_iff.mpr hxl)
    have hxrest := (mem_append.mp (hrest.mem_iff.mpr hx)).resolve_left hxl
    have hlen' := hrest.length_eq
    have hpos := length_pos_of_mem hxrest
    rw [length_append] at hlen'
    refine ⟨by rw [hperm.length_eq]; omega, fun y hy => ?_⟩
    have hyl := hperm.mem_iff.mp hy
    refine lt_of_le_of_ne (hle (hlow y hyl x hxrest)) fun heq => hxl ?_
    rwa [← hinj _ (hmem _ hy) _ hx heq]

end VecDb.Heap
