import VecDb.Pager.Shape

/-! # Pages in use and free pages

The pages handed out and the freelist share no page and lie between the header
page and the end of the database. Taking a page and freeing one keep this.
-/

namespace VecDb.Pager

open List

structure Ledger (p : Pager) (alloc : List UInt32) : Prop where
  nodup : (alloc ++ p.free).Nodup
  pages : ∀ n ∈ alloc ++ p.free, 2 ≤ n.toNat ∧ n ≤ p.dbSize
  pos : 1 ≤ p.dbSize.toNat

def Roomy (p : Pager) : Prop := p.free ≠ [] ∨ p.dbSize.toNat + 1 < 2 ^ 32

instance (p : Pager) : Decidable p.Roomy := inferInstanceAs (Decidable (_ ∨ _))

variable {p q : Pager} {alloc : List UInt32} {n : UInt32}

/-- The page that `Allocate` takes: the last free page, or the one past the end. -/
theorem nextPage_cases (p : Pager) :
    (∃ init pgno, p.free = init ++ [pgno] ∧ p.nextPage = ({ p with free := init }, pgno)) ∨
      p.free = [] ∧ p.nextPage = ({ p with dbSize := p.dbSize + 1 }, p.dbSize + 1) := by
  rcases eq_nil_or_concat p.free with h | ⟨init, pgno, h⟩
  · exact .inr ⟨h, by simp [nextPage, h]⟩
  · rw [concat_eq_append] at h
    exact .inl ⟨init, pgno, h, by simp [nextPage, h]⟩

namespace Ledger

section

variable (hl : p.Ledger alloc)
include hl

theorem quiet (hq : Quiet p q) : q.Ledger alloc := by
  constructor
  · simpa only [hq.free] using hl.nodup
  · simpa only [hq.free, hq.dbSize] using hl.pages
  · simpa only [hq.dbSize] using hl.pos

theorem two_le (hn : n ∈ alloc) : 2 ≤ n.toNat :=
  (hl.pages n (mem_append_left _ hn)).1

theorem free_ne (hn : n ∈ p.free) : n ≠ 0 ∧ n ≠ 1 := by
  have h2 := (hl.pages n (mem_append_right _ hn)).1
  constructor <;> rintro rfl <;> simp at h2

theorem notMem_free (hn : n ∈ alloc) : n ∉ p.free :=
  fun hf => (nodup_append.mp hl.nodup).2.2 n hn n hf rfl

/-- The page taken is apart from the pages in use and the header page. -/
theorem nextPage_fresh : p.nextPage.2 ≠ 1 ∧ p.nextPage.2 ∉ alloc := by
  rcases nextPage_cases p with ⟨init, pgno, hfree, hnext⟩ | ⟨hfree, hnext⟩
  · have hmem : pgno ∈ p.free := by simp [hfree]
    rw [hnext]
    exact ⟨(hl.free_ne hmem).2, fun hn => hl.notMem_free hn hmem⟩
  · have hpos := hl.pos
    have hlt := p.dbSize.toNat_lt
    rw [hnext]
    constructor
    · intro h
      have := congrArg UInt32.toNat h
      simp only [UInt32.toNat_add, UInt32.toNat_one] at this
      omega
    · intro hn
      obtain ⟨h2, hle⟩ := hl.pages _ (mem_append_left _ hn)
      rw [UInt32.le_iff_toNat_le] at hle
      simp only [UInt32.toNat_add, UInt32.toNat_one] at h2 hle
      omega

theorem perm {alloc' : List UInt32} (hdb : q.dbSize = p.dbSize)
    (h : (alloc' ++ q.free).Perm (alloc ++ p.free)) : q.Ledger alloc' := by
  constructor
  · exact h.nodup_iff.mpr hl.nodup
  · rw [hdb]
    exact fun m hm => hl.pages m (h.mem_iff.mp hm)
  · rw [hdb]
    exact hl.pos

/-- Taking a page moves it from the freelist, or from past the end, to the pages in use. -/
theorem nextPage (hr : p.Roomy) : p.nextPage.1.Ledger (p.nextPage.2 :: alloc) := by
  have hfresh := hl.nextPage_fresh
  rcases nextPage_cases p with ⟨init, pgno, hfree, hnext⟩ | ⟨hfree, hnext⟩
  · rw [hnext]
    apply hl.perm
    · rfl
    · rw [hfree, ← append_assoc]
      exact (perm_append_singleton pgno (alloc ++ init)).symm
  · have hlt : p.dbSize.toNat + 1 < 2 ^ 32 := hr.resolve_left (not_not.mpr hfree)
    have hval : (p.dbSize + 1).toNat = p.dbSize.toNat + 1 := by
      rw [UInt32.toNat_add, UInt32.toNat_one, Nat.mod_eq_of_lt hlt]
    have hpos := hl.pos
    rw [hnext] at hfresh ⊢
    constructor
    · have hn := hl.nodup
      simp only [hfree, append_nil] at hn ⊢
      exact nodup_cons.mpr ⟨hfresh.2, hn⟩
    · intro m hm
      rw [cons_append] at hm
      rcases mem_cons.mp hm with rfl | hm
      · exact ⟨by rw [hval]; omega, UInt32.le_refl _⟩
      · obtain ⟨h2, hle⟩ := hl.pages m hm
        refine ⟨h2, ?_⟩
        rw [UInt32.le_iff_toNat_le] at hle ⊢
        rw [hval]
        omega
    · rw [hval]
      omega

end

theorem lose (hl : p.Ledger (n :: alloc)) : p.Ledger alloc :=
  ⟨(nodup_cons.mp hl.nodup).2, fun m hm => hl.pages m (mem_cons_of_mem _ hm), hl.pos⟩

theorem freePage (hl : p.Ledger alloc) (hn : n ∈ alloc) :
    (p.freePage n).Ledger (alloc.erase n) := by
  have hq := quiet_dropFrame p n
  apply hl.perm
  · exact hq.dbSize
  · simp only [Pager.freePage, hq.free]
    have h := (perm_cons_erase hn).append_right p.free
    rw [← append_assoc]
    exact (perm_append_singleton n _).trans h.symm

end Ledger

end VecDb.Pager
