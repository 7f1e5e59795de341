import VecDb.Pager.Freelist

/-! # Opening any file

The walk along the trunk chain of an arbitrary file ends, with the freelist or an error, exactly if
the chain runs through different pages that have room for their leaves.
-/

namespace VecDb.Pager

open Bytes Vfs Format List

variable {file : MemData} {ps fuel : ℕ} {trunk q : UInt32} {free pages l m : List UInt32}

/-- The bytes of a trunk page, where the walk reads one. -/
def trunkAt (file : MemData) (ps : ℕ) (trunk : UInt32) : Option Bytes :=
  if trunk = 0 ∨ (file.readAt ((trunk - 1).toNat * ps) ps).2 then none
  else some (file.readAt ((trunk - 1).toNat * ps) ps).1

/-- The trunk chain runs through the pages, to the null page or one that cannot be read. -/
def Ends (file : MemData) (ps : ℕ) : UInt32 → List UInt32 → Prop
  | trunk, [] => trunkAt file ps trunk = none
  | trunk, q :: pages => trunk = q ∧ ∃ buf tp, trunkAt file ps trunk = some buf ∧
      decodeTrunk buf = some tp ∧ Ends file ps tp.next pages

/-- The caller gets a value or an error: the walk came to an end and stayed within the pages. -/
def Answered {α : Type} (r : Except Err α) : Prop :=
  r ≠ .error .endlessChain ∧ r ≠ .error .trunkOutOfRange

theorem answered_map {α β : Type} (r : Except Err α) (f : α → β) :
    Answered (r.map f) ↔ Answered r := by
  rcases r with e | a <;> simp [Answered, Except.map]

theorem ends_iff {buf : Bytes} (ht : trunkAt file ps trunk = some buf) :
    Ends file ps trunk pages ↔ ∃ tp rest, decodeTrunk buf = some tp ∧ pages = trunk :: rest ∧
      Ends file ps tp.next rest := by
  rcases pages with _ | ⟨q, rest⟩
  · simp [Ends, ht]
  · simp only [Ends, ht, Option.some.injEq, cons.injEq]
    exact ⟨fun ⟨hq, _, tp, hb, hd, he⟩ => ⟨tp, rest, hb ▸ hd, ⟨hq.symm, rfl⟩, he⟩,
      fun ⟨tp, _, hd, ⟨hq, hr⟩, he⟩ => ⟨hq.symm, buf, tp, rfl, hd, hr ▸ he⟩⟩

theorem answered_iff (fuel : ℕ) (trunk : UInt32) (free : List UInt32) :
    Answered (loadTrunks file ps fuel trunk free) ↔
      ∃ pages, pages.length ≤ fuel ∧ Ends file ps trunk pages := by
  induction fuel using Nat.strong_induction_on generalizing trunk free with | _ fuel ih
  rw [loadTrunks]
  rcases ht : trunkAt file ps trunk with _ | buf
  · refine ⟨fun _ => ⟨[], Nat.zero_le _, ht⟩, fun _ => ?_⟩
    simp only [trunkAt, ite_eq_left_iff, reduceCtorEq, imp_false, not_not] at ht
    split
    · simp [Answered]
    · simp [Answered, ht.resolve_left ‹_›]
  · have hread := ht
    simp only [trunkAt, Option.ite_none_left_eq_some, not_or, Option.some.injEq] at hread
    obtain ⟨⟨h0, heof⟩, rfl⟩ := hread
    simp only [h0, heof, Bool.false_eq_true, if_false, ends_iff ht]
    rcases decodeTrunk _ with _ | tp
    · simp [Answered]
    · rcases fuel with _ | fuel
      · simp [Answered]
      · dsimp only
        rw [ih fuel fuel.lt_succ_self]
        constructor
        · rintro ⟨pages, hlen, he⟩
          exact ⟨trunk :: pages, by simpa using hlen, tp, pages, rfl, rfl, he⟩
        · rintro ⟨_, hlen, _, pages, ⟨⟩, rfl, he⟩
          exact ⟨pages, by simpa using hlen, he⟩

theorem Ends.length_unique (hl : Ends file ps trunk l) (hm : Ends file ps trunk m) :
    l.length = m.length := by
  induction l generalizing trunk m with
  | nil =>
    rcases m with _ | ⟨q, m⟩
    · rfl
    · obtain ⟨-, _, _, ht, -⟩ := hm
      exact absurd (hl.symm.trans ht) nofun
  | cons q l ih =>
    obtain ⟨-, buf, tp, ht, hd, hl⟩ := hl
    obtain ⟨_, rest, hd', rfl, hm⟩ := (ends_iff ht).mp hm
    obtain rfl := Option.some.inj (hd.symm.trans hd')
    rw [length_cons, length_cons, ih hl hm]

theorem Ends.of_mem (h : Ends file ps trunk l) (hq : q ∈ l) :
    ∃ m, Ends file ps q m ∧ m.length ≤ l.length ∧ trunkAt file ps q ≠ none := by
  induction l generalizing trunk with
  | nil => cases hq
  | cons q' l ih =>
    obtain ⟨rfl, buf, tp, ht, hd, hl⟩ := h
    rcases mem_cons.mp hq with rfl | hq
    · exact ⟨q :: l, ⟨rfl, buf, tp, ht, hd, hl⟩, le_rfl, by simp [ht]⟩
    · obtain ⟨m, hm, hlen, hne⟩ := ih hl hq
      exact ⟨m, hm, by rw [length_cons]; omega, hne⟩

theorem Ends.nodup (h : Ends file ps trunk l) : l.Nodup := by
  induction l generalizing trunk with
  | nil => exact nodup_nil
  | cons q l ih =>
    have hself := h
    obtain ⟨rfl, _, _, -, -, hl⟩ := h
    refine nodup_cons.mpr ⟨fun hq => ?_, ih hl⟩
    -- the chain from a page is as long wherever the page stands
    obtain ⟨m, hm, hle, -⟩ := hl.of_mem hq
    have := hself.length_unique hm
    rw [length_cons] at this
    omega

theorem trunkAt_le (h : trunkAt file ps trunk ≠ none) :
    trunk ≠ 0 ∧ trunk.toNat * ps ≤ file.live.length := by
  simp only [trunkAt, ne_eq, ite_eq_left_iff, reduceCtorEq, imp_false, not_not, not_or] at h
  obtain ⟨h0, hread⟩ := h
  have hoff : (trunk - 1).toNat * ps + ps = trunk.toNat * ps := by
    rw [toNat_sub_one h0]
    exact pageOff_add (one_le_toNat h0)
  simp [MemData.readAt, slice] at hread
  exact ⟨h0, by omega⟩

theorem open_answers_iff {h : Header} (hlen : headerSize ≤ file.live.length)
    (hh : decodeHeader (slice file.live 0 headerSize) = .ok h) (cacheFrames : ℤ) :
    Answered (openPager file cacheFrames) ↔
      ∃ pages, pages.Nodup ∧ Ends file h.pageSize.val h.freelistTrunk pages := by
  rw [openPager_eq hlen hh, loadFreelist, answered_map, answered_iff]
  constructor
  · rintro ⟨pages, -, he⟩
    exact ⟨pages, he.nodup, he⟩
  · rintro ⟨pages, hn, he⟩
    refine ⟨pages, length_le_pages (lt_of_lt_of_le (by omega) h.pageSize.ge) hn fun q hq => ?_, he⟩
    obtain ⟨-, -, -, hne⟩ := he.of_mem hq
    exact trunkAt_le hne

theorem valid_least : validPageSize 4096 = true := rfl

/-- A page with a header that names the first trunk page, and more pages. -/
def headerFile (trunk : UInt32) (pages : Bytes) : MemData where
  live := Header.encode { newHeader ⟨4096, valid_least⟩ 0 with freelistTrunk := trunk }
    (replicate 4096 0) ++ pages
  durable := []

theorem headerFile_spec (trunk : UInt32) (pages : Bytes) :
    (headerFile trunk pages).live.length = 4096 + pages.length ∧
    slice (headerFile trunk pages).live 4096 pages.length = pages ∧
    decodeHeader (slice (headerFile trunk pages).live 0 headerSize) =
      .ok (Header.stamped { newHeader ⟨4096, rfl⟩ 0 with freelistTrunk := trunk }) := by
  have hlen : (Header.encode { newHeader ⟨4096, valid_least⟩ 0 with freelistTrunk := trunk }
      (replicate 4096 0)).length = 4096 := by
    rw [Header.length_encode _ _ (by rw [length_replicate]; decide), length_replicate]
  refine ⟨by rw [headerFile, length_append, hlen], ?_, ?_⟩
  · rw [headerFile, slice_append_right hlen.le, hlen]
    simp [slice]
  · rw [headerFile, slice_append_left (by rw [hlen]; decide), Header.slice_encode_header]
    exact Header.decodeHeader_encode rfl

def trunkPage : Bytes := writePageChecksum (encodeTrunk 4096 ⟨0, [3]⟩) 1

theorem open_answers_one_trunk : Answered (openPager (headerFile 2 trunkPage) 1) := by
  obtain ⟨hlen, hpage, hh⟩ := headerFile_spec 2 trunkPage
  have hd : decodeTrunk trunkPage = some ⟨0, [3]⟩ := decodeTrunk_encode 1 (by decide) (by decide)
  have hps : trunkPage.length = 4096 := by
    rw [trunkPage, length_writePageChecksum, length_encodeTrunk] <;>
      simp [length_encodeTrunk, pageHeaderSize]
  rw [hps] at hlen hpage
  have ht : trunkAt (headerFile 2 trunkPage) 4096 2 = some trunkPage := by
    have hread : (headerFile 2 trunkPage).readAt ((2 - 1 : UInt32).toNat * 4096) 4096 =
        (trunkPage, false) :=
      (readAt_page (by decide) one_le_two hlen.ge).trans (congrArg (·, false) hpage)
    rw [trunkAt, hread]
    rfl
  exact (open_answers_iff (by rw [hlen]; decide) hh 1).mpr
    ⟨[2], nodup_singleton 2, rfl, _, _, ht, hd, rfl⟩

/-- Taken for a trunk page, the header page counts more leaves than a page has room for. -/
theorem open_leaves_page : ¬ Answered (openPager (headerFile 1 []) 1) := by
  obtain ⟨hlen, -, hh⟩ := headerFile_spec 1 []
  have hcount : (PageHeader.parse (headerFile 1 []).live).cellCount = 8292 := rfl
  generalize headerFile 1 [] = file at *
  have hpage : slice file.live 0 4096 = file.live := by
    simpa using slice_zero (b := []) hlen
  have hread : file.readAt ((1 - 1 : UInt32).toNat * 4096) 4096 = (file.live, false) :=
    (readAt_page (by decide) le_rfl hlen.ge).trans (congrArg (·, false) hpage)
  have ht : trunkAt file 4096 1 = some file.live := by
    rw [trunkAt, hread]
    rfl
  rw [openPager_eq (by rw [hlen]; decide) hh, loadFreelist, answered_map, answered_iff]
  rintro ⟨pages, -, he⟩
  obtain ⟨tp, -, hd, -⟩ := (ends_iff ht).mp he
  simp [decodeTrunk, decodePageHeader, hlen, Except.toOption, pageHeaderSize, hcount] at hd

end VecDb.Pager
