import VecDb.Base.Run
import VecDb.Pager.Image
import VecDb.Pager.Ledger

/-! # The buffer pool as a page store

Whatever the pool evicts and reads back, a pinned frame shows the page as a store without a cache
would have it, the checksum bytes aside.
-/

namespace VecDb.Pager

open Bytes Vfs Format List Function

def body (page : Bytes) : Bytes := page.take (page.length - pageChecksumSize)

/-- A pin that a caller holds, and whether it has written to the page. -/
structure Handle where
  pgno : UInt32
  slot : ℕ
  modified : Bool := false
  deriving DecidableEq

inductive Access
  | allocate
  | get (pgno : UInt32)
  | write (i off : ℕ) (bytes : Bytes)
  | unpin (i : ℕ) (dirty : Bool)
  | free (pgno : UInt32)
  deriving DecidableEq

structure Session where
  pager : Pager
  alloc : List UInt32 := []
  handles : List Handle := []
  /-- What each page in use holds: zeros at first, then what was written. -/
  store : UInt32 → Bytes := fun _ => []

namespace Session

def start (p : Pager) : Session := { pager := p }

def step (s : Session) : Access → Except Err Session
  | .allocate =>
    match s.pager.allocate with
    | (p, .error _) => .ok { s with pager := p }
    | (p, .ok (pgno, slot)) =>
      .ok { s with
        pager := p
        alloc := pgno :: s.alloc
        handles := ⟨pgno, slot, false⟩ :: s.handles
        store := update s.store pgno (List.replicate p.pageSize 0) }
  | .get pgno =>
    match s.pager.get pgno with
    | (p, .error _) => .ok { s with pager := p }
    | (p, .ok slot) => .ok { s with pager := p, handles := ⟨pgno, slot, false⟩ :: s.handles }
  | .write i off bytes =>
    match s.handles[i]? with
    | none => .ok s
    | some h =>
      .ok { s with
        pager := s.pager.poke h.slot off bytes
        handles := s.handles.set i { h with modified := true }
        store := update s.store h.pgno (overlay (s.store h.pgno) off bytes) }
  | .unpin i dirty =>
    match s.handles[i]? with
    | none => .ok s
    | some h =>
      .ok { s with pager := s.pager.unpin h.slot dirty, handles := s.handles.eraseIdx i }
  | .free pgno => .ok { s with pager := s.pager.freePage pgno, alloc := s.alloc.erase pgno }

/-- Pages in use are read, and freed when nobody holds them; every write is declared; page numbers
and pin counts do not run over. -/
def Allowed (s : Session) : Access → Prop
  | .allocate => s.pager.Roomy
  | .get pgno =>
    pgno ∈ s.alloc ∧ ∀ slot ∈ s.pager.index pgno, (s.pager.frame slot).pins + 1 ≠ 0
  | .write _ _ _ => True
  | .unpin i dirty => ∀ h ∈ s.handles[i]?, h.modified = true → dirty = true
  | .free pgno => pgno ∈ s.alloc ∧ ∀ h ∈ s.handles, h.pgno ≠ pgno

def OnFile (p : Pager) (n : UInt32) (b : Bytes) : Prop :=
  n.toNat * p.pageSize ≤ p.file.live.length ∧
    body (pageAt p.pageSize p.file.live n.toNat) = body b

/-- Nothing was written to the frame that is not on file or declared dirty. -/
def Clean (s : Session) (i : ℕ) : Prop :=
  (s.pager.frame i).dirty = false ∧ ∀ h ∈ s.handles, h.slot = i → h.modified = false

structure Coherent (s : Session) : Prop where
  shaped : s.pager.Shaped
  ledger : s.pager.Ledger s.alloc
  bound : ∀ n i, s.pager.index n = some i → (s.pager.frame i).pgno = n ∧ n ∈ s.alloc
  indexed : ∀ i < s.pager.pool.length, (s.pager.frame i).pgno ≠ 0 →
    s.pager.index (s.pager.frame i).pgno = some i
  held : ∀ h ∈ s.handles, s.pager.index h.pgno = some h.slot
  pins : ∀ i < s.pager.pool.length,
    (s.pager.frame i).pins.toNat = (s.handles.map Handle.slot).count i
  size : ∀ n ∈ s.alloc, (s.store n).length = s.pager.pageSize
  cached : ∀ n i, s.pager.index n = some i → body (s.pager.frame i).data = body (s.store n)
  saved : ∀ n ∈ s.alloc, (∀ i, s.pager.index n = some i → s.Clean i) →
    OnFile s.pager n (s.store n)

variable {s : Session} {p q : Pager} {n m : UInt32} {b data : Bytes} {slot i : ℕ}
  {store : UInt32 → Bytes} {alloc : List UInt32} {dirty : Bool} {fr : Frame}

section Pages

theorem body_writePageChecksum (algo : UInt8) (h : 4 ≤ data.length) :
    body (writePageChecksum data algo) = body data := by
  rw [body, body, length_writePageChecksum algo h]
  exact take_writePageChecksum algo rfl

theorem body_overlay {off : ℕ} (page : Bytes) (bytes : Bytes) :
    body (overlay page off bytes) = overlay (body page) off bytes := by
  rw [body, length_overlay, take_overlay (Nat.sub_le ..)]
  rfl

theorem OnFile.writePage_ne (h : OnFile p m b) (hm : m ≠ 0) (hn : n ≠ 0) (hne : m ≠ n)
    (hd : data.length = p.pageSize) : OnFile (p.writePage n data) m b := by
  obtain ⟨hlen, hbody⟩ := h
  have hsame := @writePage_same p n data [m] hn hd (by simpa using hne.symm)
    (by simpa using ⟨hm, hlen⟩)
  obtain ⟨hin, hpage⟩ := hsame m (by simp)
  refine ⟨hin, ?_⟩
  rw [← hbody]
  exact congrArg body hpage

theorem OnFile.writePage (hn : n ≠ 0) (hd : data.length = p.pageSize) (hb : body data = body b) :
    OnFile (p.writePage n data) n b := by
  obtain ⟨hin, hpage⟩ := @writePage_page p n data hn hd
  exact ⟨hin, by rw [← hb]; exact congrArg body hpage⟩

theorem OnFile.load (h : OnFile p n b) (hn : n ≠ 0) : body (p.load n) = body b := by
  obtain ⟨hlen, hbody⟩ := h
  have hps : 0 < p.pageSize := lt_of_lt_of_le (by omega) p.header.pageSize.ge
  rw [Pager.load, offset_eq p hn, readAt_page hps (one_le_toNat hn) hlen]
  exact hbody

end Pages

section Calls

/-- Binding a frame to a page, filling it and pinning it, all at once. -/
def occupied (p : Pager) (slot : ℕ) (n : UInt32) (data : Bytes) (dirty : Bool) : Pager :=
  { p.setFrame slot ⟨n, data, (p.frame slot).pins + 1, dirty, true⟩ with
    index := update p.index n (some slot) }

theorem pin_fill (hl : slot < p.pool.length) (n : UInt32) (dirty : Bool) :
    ((p.bindFrame slot n).setFrame slot
      { (p.bindFrame slot n).frame slot with data := data, dirty := dirty }).pin slot =
      occupied p slot n data dirty := by
  simp [bindFrame, setFrame, pin, frame, occupied, List.getD, hl, set_set]

theorem get_cases (hs : p.Shaped) (hn : n ≠ 0) :
    (∃ slot, p.index n = some slot ∧ p.get n = (p.pin slot, .ok slot)) ∨
      p.index n = none ∧ p.evict.2 = none ∧ p.get n = (p.evict.1, .error .exhausted) ∨
      ∃ slot, p.index n = none ∧ p.evict.2 = some slot ∧
        p.get n = (occupied p.evict.1 slot n (p.evict.1.load n) false, .ok slot) := by
  have hslot := (evict_quiet p hs).2
  unfold get admitPage
  rw [if_neg hn]
  rcases hi : p.index n with _ | slot
  · refine .inr ?_
    rcases he : p.evict with ⟨q, _ | slot⟩ <;> rw [he] at hslot
    · exact .inl ⟨rfl, rfl, rfl⟩
    · have hl : slot < q.pool.length := hslot slot rfl
      refine .inr ⟨slot, rfl, rfl, ?_⟩
      have hdirty : ((q.bindFrame slot n).frame slot).dirty = false :=
        congrArg Frame.dirty (frame_setFrame hl)
      rw [← pin_fill hl n false, ← hdirty]
      rfl
  · exact .inl ⟨slot, rfl, rfl⟩

theorem allocate_cases (hs : p.Shaped) :
    p.nextPage.1.evict.2 = none ∧ p.allocate = (p.nextPage.1.evict.1, .error .exhausted) ∨
      ∃ slot, p.nextPage.1.evict.2 = some slot ∧
        p.allocate = (occupied p.nextPage.1.evict.1 slot p.nextPage.2
          (List.replicate p.nextPage.1.evict.1.pageSize 0) true, .ok (p.nextPage.2, slot)) := by
  have hslot := (evict_quiet p.nextPage.1 (shaped_nextPage hs).1).2
  unfold allocate admitPage
  rcases he : p.nextPage.1.evict with ⟨q, _ | slot⟩ <;> rw [he] at hslot
  · exact .inl ⟨rfl, rfl⟩
  · have hl : slot < q.pool.length := hslot slot rfl
    refine .inr ⟨slot, rfl, ?_⟩
    rw [← pin_fill hl p.nextPage.2 true]
    rfl

end Calls

/-- The two states differ in one frame and one page at most, which belong together. -/
structure Local (s t : Session) (slot : ℕ) (n : UInt32) : Prop where
  apart : ∀ m i, s.pager.index m = some i → (m = n ↔ i = slot)
  size : t.pager.pageSize = s.pager.pageSize
  pool : t.pager.pool.length = s.pager.pool.length
  frame : ∀ i, i ≠ slot → t.pager.frame i = s.pager.frame i
  index : ∀ m, m ≠ n → t.pager.index m = s.pager.index m
  alloc : ∀ m, m ≠ n → (m ∈ t.alloc ↔ m ∈ s.alloc)
  store : ∀ m, m ≠ n → t.store m = s.store m
  file : ∀ m b, m ≠ n → m ≠ 0 → OnFile s.pager m b → OnFile t.pager m b
  count : ∀ i, i ≠ slot →
    (t.handles.map Handle.slot).count i = (s.handles.map Handle.slot).count i
  clean : ∀ i, i ≠ slot → (∀ h ∈ t.handles, h.slot = i → h.modified = false) →
    ∀ h ∈ s.handles, h.slot = i → h.modified = false

namespace Coherent

section

variable (hc : s.Coherent)
include hc

theorem ne_zero (hn : n ∈ s.alloc) : n ≠ 0 ∧ n ≠ 1 := by
  have h2 := hc.ledger.two_le hn
  constructor <;> rintro rfl <;> simp at h2

theorem frame_bound (hi : i < s.pager.pool.length) (h0 : (s.pager.frame i).pgno ≠ 0) :
    s.pager.index (s.pager.frame i).pgno = some i ∧ (s.pager.frame i).pgno ∈ s.alloc :=
  ⟨hc.indexed i hi h0, (hc.bound _ i (hc.indexed i hi h0)).2⟩

theorem notHeld (hi : i < s.pager.pool.length)
    (h0 : (s.pager.frame i).pins = 0) : ∀ h ∈ s.handles, h.slot ≠ i := by
  intro h hh he
  have hcount := hc.pins i hi
  rw [h0, UInt32.toNat_zero, eq_comm, count_eq_zero] at hcount
  exact hcount (he ▸ mem_map_of_mem hh)

theorem onFile (hn : n ∈ s.alloc) (hi : s.pager.index n = none) : OnFile s.pager n (s.store n) :=
  hc.saved n hn fun _ h => nomatch hi.symm.trans h

end

theorem apart (hc : s.Coherent) (hn : s.pager.index n = some slot) (hm : s.pager.index m = some i) :
    m = n ↔ i = slot := by
  constructor
  · rintro rfl
    exact Option.some.inj (hm.symm.trans hn)
  · rintro rfl
    exact (hc.bound m i hm).1.symm.trans (hc.bound n i hn).1

section

variable (hc : s.Coherent)
include hc

theorem of_local {t : Session} (hl : Local s t slot n)
    (hshaped : t.pager.Shaped) (hledger : t.pager.Ledger t.alloc)
    (hpage : ∀ i, t.pager.index n = some i → i = slot ∧ (t.pager.frame slot).pgno = n ∧
      n ∈ t.alloc ∧ body (t.pager.frame slot).data = body (t.store n))
    (hframe : (t.pager.frame slot).pgno ≠ 0 → t.pager.index (t.pager.frame slot).pgno = some slot)
    (hheld : ∀ h ∈ t.handles, t.pager.index h.pgno = some h.slot)
    (hpins : (t.pager.frame slot).pins.toNat = (t.handles.map Handle.slot).count slot)
    (hsize : n ∈ t.alloc → (t.store n).length = t.pager.pageSize)
    (hsaved : n ∈ t.alloc → (∀ i, t.pager.index n = some i → t.Clean i) →
      OnFile t.pager n (t.store n)) : t.Coherent := by
  have hold : ∀ m i, m ≠ n → t.pager.index m = some i → s.pager.index m = some i ∧ i ≠ slot := by
    intro m i hm h
    rw [hl.index m hm] at h
    exact ⟨h, mt (hl.apart m i h).mpr hm⟩
  refine ⟨hshaped, hledger, ?_, ?_, hheld, ?_, ?_, ?_, ?_⟩
  · intro m i h
    by_cases hm : m = n
    · subst hm
      obtain ⟨rfl, hpgno, hmem, -⟩ := hpage i h
      exact ⟨hpgno, hmem⟩
    · obtain ⟨h, hi⟩ := hold m i hm h
      rw [hl.frame i hi, hl.alloc m hm]
      exact hc.bound m i h
  · intro i hlt h0
    by_cases hi : i = slot
    · subst hi
      exact hframe h0
    · rw [hl.frame i hi] at h0 ⊢
      have h := hc.indexed i (hl.pool ▸ hlt) h0
      rwa [hl.index _ (mt (hl.apart _ i h).mp hi)]
  · intro i hlt
    by_cases hi : i = slot
    · rwa [hi]
    · rw [hl.frame i hi, hl.count i hi]
      exact hc.pins i (hl.pool ▸ hlt)
  · intro m hm
    by_cases he : m = n
    · subst he
      exact hsize hm
    · rw [hl.store m he, hl.size]
      exact hc.size m ((hl.alloc m he).mp hm)
  · intro m i h
    by_cases hm : m = n
    · subst hm
      obtain ⟨rfl, -, -, hbody⟩ := hpage i h
      exact hbody
    · obtain ⟨h, hi⟩ := hold m i hm h
      rw [hl.frame i hi, hl.store m hm]
      exact hc.cached m i h
  · intro m hm h
    by_cases he : m = n
    · subst he
      exact hsaved hm h
    · have hmem := (hl.alloc m he).mp hm
      rw [hl.store m he]
      refine hl.file m _ he (hc.ne_zero hmem).1 (hc.saved m hmem fun i hi => ?_)
      have hne := mt (hl.apart m i hi).mpr he
      obtain ⟨hd, hmod⟩ := h i (by rw [hl.index m he]; exact hi)
      rw [hl.frame i hne] at hd
      exact ⟨hd, hl.clean i hne hmod⟩

theorem turned (ht : Turned s.pager q) :
    ({ s with pager := q } : Session).Coherent := by
  have hdata : ∀ i, (q.frame i).data = (s.pager.frame i).data := fun i =>
    congrArg (fun fr => fr.data) (ht.frame i)
  have hdirty : ∀ i, (q.frame i).dirty = (s.pager.frame i).dirty := fun i =>
    congrArg (fun fr => fr.dirty) (ht.frame i)
  constructor
  · exact ht.quiet.shaped hc.shaped
  · exact hc.ledger.quiet ht.quiet
  · simpa only [ht.index, ht.pgno] using hc.bound
  · simpa only [ht.index, ht.length, ht.pgno] using hc.indexed
  · simpa only [ht.index] using hc.held
  · simpa only [ht.length, ht.pins] using hc.pins
  · simpa only [ht.pageSize] using hc.size
  · simpa only [ht.index, hdata] using hc.cached
  · simpa only [Clean, OnFile, ht.index, ht.pageSize, ht.file, hdirty] using hc.saved

theorem writeBack (hi : slot < s.pager.pool.length) (h0 : (s.pager.frame slot).pgno ≠ 0) :
    ({ s with pager := s.pager.writeBack slot } : Session).Coherent := by
  obtain ⟨hindex, halloc⟩ := hc.frame_bound hi h0
  have hlen := hc.shaped.length_frame hi
  have h4 : 4 ≤ (s.pager.frame slot).data.length := hlen ▸ four_le_pageSize s.pager
  set data := writePageChecksum (s.pager.frame slot).data s.pager.header.checksum with hdata
  have hd : data.length = s.pager.pageSize := (length_writePageChecksum _ h4).trans hlen
  have hbody : body data = body (s.store (s.pager.frame slot).pgno) :=
    (body_writePageChecksum _ h4).trans (hc.cached _ slot hindex)
  have heq : s.pager.writeBack slot = (s.pager.writePage (s.pager.frame slot).pgno data).setFrame
      slot { s.pager.frame slot with data := data, dirty := false } := by
    unfold Pager.writeBack
    dsimp only
    rw [if_pos (hc.ne_zero halloc).2]
  have hq := quiet_writeBack s.pager slot
  rw [heq] at hq ⊢
  have hself := @frame_setFrame (s.pager.writePage (s.pager.frame slot).pgno data) slot
    { s.pager.frame slot with data := data, dirty := false } hi
  refine hc.of_local ⟨fun m i => hc.apart hindex, rfl, length_setFrame,
    fun _ => frame_setFrame_ne, fun _ _ => rfl, fun _ _ => .rfl, fun _ _ => rfl,
    fun m b hne hm h => h.writePage_ne hm h0 hne hd, fun _ _ => rfl, fun _ _ h => h⟩
    (hq.shaped hc.shaped) (hc.ledger.quiet hq) ?_ ?_ hc.held ?_ (hc.size _)
    fun _ _ => OnFile.writePage h0 hd hbody
  · intro i h
    rw [hself]
    exact ⟨Option.some.inj (h.symm.trans hindex), rfl, halloc, hbody⟩
  · rw [hself]
    exact fun _ => hindex
  · rw [hself]
    exact hc.pins slot hi

theorem unbind {free : List UInt32}
    (hi : slot < s.pager.pool.length) (h0 : (s.pager.frame slot).pgno ≠ 0)
    (hpins : (s.pager.frame slot).pins = 0) (hfr : fr.pgno = 0 ∧ fr.pins = 0 ∧
      fr.data.length = s.pager.pageSize) (hq : q = { s.pager.setFrame slot fr with
      index := update s.pager.index (s.pager.frame slot).pgno none
      free := free }) (hl : q.Ledger alloc)
    (halloc : ∀ n, n ≠ (s.pager.frame slot).pgno → (n ∈ alloc ↔ n ∈ s.alloc))
    (hclean : (s.pager.frame slot).pgno ∈ alloc → (s.pager.frame slot).dirty = false) :
    ({ s with pager := q, alloc := alloc } : Session).Coherent := by
  obtain ⟨hindex, hslot⟩ := hc.frame_bound hi h0
  have hheld := hc.notHeld hi hpins
  subst hq
  have hself : (s.pager.setFrame slot fr).frame slot = fr := frame_setFrame hi
  refine hc.of_local ⟨fun m i => hc.apart hindex, rfl, length_setFrame,
    fun _ => frame_setFrame_ne, fun _ hm => update_of_ne hm .., halloc, fun _ _ => rfl,
    fun _ _ _ _ h => h, fun _ _ => rfl, fun _ _ h => h⟩ ?_ hl ?_ ?_ ?_ ?_ (fun _ => hc.size _ hslot)
    ?_
  · have hset := @quiet_setFrame s.pager slot fr fun _ _ => hfr.2.2
    have hsh := (hset.trans (quiet_unindex _ (s.pager.frame slot).pgno)).shaped hc.shaped
    exact ⟨hsh.frames, hsh.slots, hsh.hand, hsh.text⟩
  · intro i h
    cases (update_self ..).symm.trans h
  · exact fun h => (h ((congrArg Frame.pgno hself).trans hfr.1)).elim
  · intro h hh
    have hold := hc.held h hh
    exact (update_of_ne (mt (hc.apart hindex hold).mp (hheld h hh)) ..).trans hold
  · refine (congrArg (fun fr => fr.pins.toNat) hself).trans ?_
    rw [hfr.2.1, ← hpins]
    exact hc.pins slot hi
  · refine fun hn _ => hc.saved _ hslot fun i hin => ?_
    obtain rfl := Option.some.inj (hin.symm.trans hindex)
    exact ⟨hclean hn, fun h hh he => (hheld h hh he).elim⟩

end

/-- A frame is ready to be bound: in the pool, unbound and unpinned. -/
def Vacant (p : Pager) (slot : ℕ) : Prop :=
  slot < p.pool.length ∧ (p.frame slot).pgno = 0 ∧ (p.frame slot).pins = 0

section

variable (hc : s.Coherent)
include hc

theorem release (hi : slot < s.pager.pool.length)
    (h0 : (s.pager.frame slot).pgno ≠ 0) (hpins : (s.pager.frame slot).pins = 0) :
    ({ s with pager := s.pager.release slot } : Session).Coherent ∧
      Vacant (s.pager.release slot) slot ∧
      ∀ n, s.pager.index n = none → (s.pager.release slot).index n = none := by
  -- the pager before the frame is unbound, with its page on file
  obtain ⟨p, hp, hcp, hl, hpg, hpin, hd, hidx⟩ : ∃ p, p = (if (s.pager.frame slot).dirty then
      s.pager.writeBack slot else s.pager) ∧ ({ s with pager := p } : Session).Coherent ∧
      slot < p.pool.length ∧ (p.frame slot).pgno = (s.pager.frame slot).pgno ∧
      (p.frame slot).pins = 0 ∧ (p.frame slot).dirty = false ∧ p.index = s.pager.index := by
    by_cases hd : (s.pager.frame slot).dirty = true
    · have hf : (s.pager.writeBack slot).frame slot = { s.pager.frame slot with
          data := ((s.pager.writeBack slot).frame slot).data, dirty := false } := by
        simp only [Pager.writeBack]
        rw [frame_setFrame (show slot < (s.pager.writePage _ _).pool.length from hi)]
      refine ⟨_, rfl, ?_⟩
      rw [if_pos hd, hf]
      exact ⟨hc.writeBack hi h0, by simpa [Pager.writeBack, Pager.writePage] using hi, rfl, hpins,
        rfl, rfl⟩
    · refine ⟨_, rfl, ?_⟩
      rw [if_neg hd]
      exact ⟨hc, hi, rfl, hpins, by simpa using hd, rfl⟩
  have hrel : s.pager.release slot = { p.setFrame slot { p.frame slot with
      pgno := 0, dirty := false } with
      index := update p.index (p.frame slot).pgno none } := by
    rw [hp, Pager.release, ← hp, hpg]
  have hlen := hcp.shaped.length_frame hl
  refine ⟨?_, ⟨?_, ?_, ?_⟩, ?_⟩
  · refine hcp.unbind hl (hpg ▸ h0) hpin ?_ hrel ?_ (fun _ _ => .rfl) fun _ => hd
    · exact ⟨rfl, hpin, hlen⟩
    · rw [hrel]
      exact ⟨hcp.ledger.nodup, hcp.ledger.pages, hcp.ledger.pos⟩
  · rw [hrel]
    simpa [setFrame] using hl
  · rw [hrel]
    exact congrArg Frame.pgno (frame_setFrame hl)
  · rw [hrel]
    exact (congrArg Frame.pins (frame_setFrame hl)).trans hpin
  · intro n hn
    rw [hrel, hidx]
    by_cases he : n = (p.frame slot).pgno
    · rw [he]
      exact update_self ..
    · rw [← hn]
      exact update_of_ne he ..

theorem evict : ({ s with pager := s.pager.evict.1 } : Session).Coherent ∧
      (∀ slot ∈ s.pager.evict.2, Vacant s.pager.evict.1 slot) ∧
      ∀ n, s.pager.index n = none → s.pager.evict.1.index n = none := by
  rcases evict_spec s.pager hc.shaped.hand with ⟨q, he, ht⟩ | ⟨slot, he, hl, h0, hp⟩ |
    ⟨q, slot, he, ht, hl, hp, h0⟩
  · rw [he]
    refine ⟨hc.turned ht, fun slot h => (nomatch h), fun n hn => ?_⟩
    rw [ht.index]
    exact hn
  · rw [he]
    refine ⟨hc, fun i hi => ?_, fun n hn => hn⟩
    cases hi
    exact ⟨hl, h0, hp⟩
  · obtain ⟨hrel, hvac, hidx⟩ := (hc.turned ht).release hl h0 hp
    rw [he]
    refine ⟨hrel, fun i hi => ?_, fun n hn => hidx n (by rw [ht.index]; exact hn)⟩
    cases hi
    exact hvac

theorem occupy (hv : Vacant s.pager slot) (hnew : s.pager.index n = none)
    (hd : data.length = s.pager.pageSize) (hl : s.pager.Ledger alloc) (hmem : n ∈ alloc)
    (halloc : ∀ m, m ≠ n → (m ∈ alloc ↔ m ∈ s.alloc)) (hstore : ∀ m, m ≠ n → store m = s.store m)
    (hsize : (store n).length = s.pager.pageSize) (hbody : body data = body (store n))
    (hsaved : dirty = false → OnFile s.pager n (store n)) :
    (⟨occupied s.pager slot n data dirty, alloc, ⟨n, slot, false⟩ :: s.handles, store⟩ :
      Session).Coherent := by
  obtain ⟨hi, h0, hpins⟩ := hv
  have hself : (occupied s.pager slot n data dirty).frame slot =
      ⟨n, data, (s.pager.frame slot).pins + 1, dirty, true⟩ := frame_setFrame hi
  have hidx : (occupied s.pager slot n data dirty).index n = some slot := update_self ..
  have hne : ∀ m i, s.pager.index m = some i → m ≠ n ∧ i ≠ slot := by
    intro m i h
    refine ⟨?_, ?_⟩
    · rintro rfl
      rw [hnew] at h
      cases h
    · rintro rfl
      obtain ⟨hb, hm⟩ := hc.bound m i h
      exact (hc.ne_zero hm).1 (hb.symm.trans h0)
  refine hc.of_local ⟨fun m i h => iff_of_false (hne m i h).1 (hne m i h).2, rfl, length_setFrame,
    fun _ => frame_setFrame_ne, fun _ hm => update_of_ne hm .., halloc, hstore,
    fun _ _ _ _ h => h, fun i hi => ?_, fun _ _ h h' hh => h h' (mem_cons_of_mem _ hh)⟩
    ?_ ⟨hl.nodup, hl.pages, hl.pos⟩ ?_ ?_ ?_ ?_ (fun _ => hsize) ?_
  · simp [Ne.symm hi]
  · refine Quiet.shaped ((@quiet_setFrame s.pager slot _ fun _ _ => hd).trans
      (quiet_index fun hs m i h => ?_)) hc.shaped
    rw [length_setFrame]
    by_cases hm : m = n
    · subst hm
      obtain rfl := Option.some.inj (h.symm.trans hidx)
      exact hi
    · rw [update_of_ne hm] at h
      exact hc.shaped.slots m i h
  · intro i h
    rw [hself]
    exact ⟨Option.some.inj (h.symm.trans hidx), rfl, hmem, hbody⟩
  · rw [hself]
    exact fun _ => hidx
  · intro h hh
    rcases mem_cons.mp hh with rfl | hh
    · exact hidx
    · have hold := hc.held h hh
      exact (update_of_ne (hne _ _ hold).1 ..).trans hold
  · rw [hself, map_cons, count_cons, ← hc.pins slot hi]
    simp [hpins]
  · intro _ h
    refine hsaved ?_
    rw [← (h slot hidx).1, hself]

theorem setFrame {handles : List Handle} (hn : s.pager.index n = some slot) (hpgno : fr.pgno = n)
    (hd : fr.data.length = s.pager.pageSize)
    (hheld : ∀ h ∈ handles, s.pager.index h.pgno = some h.slot)
    (hpins : fr.pins.toNat = (handles.map Handle.slot).count slot) (hcount : ∀ i, i ≠ slot →
      (handles.map Handle.slot).count i = (s.handles.map Handle.slot).count i)
    (hstore : ∀ m, m ≠ n → store m = s.store m) (hsize : (store n).length = s.pager.pageSize)
    (hbody : body fr.data = body (store n))
    (hmod : ∀ i, i ≠ slot → (∀ h ∈ handles, h.slot = i → h.modified = false) →
      ∀ h ∈ s.handles, h.slot = i → h.modified = false)
    (hclean : fr.dirty = false → (∀ h ∈ handles, h.slot = slot → h.modified = false) →
      s.Clean slot ∧ store n = s.store n) :
    (⟨s.pager.setFrame slot fr, s.alloc, handles, store⟩ : Session).Coherent := by
  have hi := hc.shaped.slots n slot hn
  have hb := hc.bound n slot hn
  have hself : (s.pager.setFrame slot fr).frame slot = fr := frame_setFrame hi
  have hq := @quiet_setFrame s.pager slot fr fun _ _ => hd
  refine hc.of_local ⟨fun m i => hc.apart hn, rfl, length_setFrame, fun _ => frame_setFrame_ne,
    fun _ _ => rfl, fun _ _ => .rfl, hstore, fun _ _ _ _ h => h, hcount, hmod⟩
    (hq.shaped hc.shaped) (hc.ledger.quiet hq) ?_ ?_ hheld ?_ (fun _ => hsize) ?_
  · intro i h
    rw [hself]
    exact ⟨Option.some.inj (h.symm.trans hn), hpgno, hb.2, hbody⟩
  · rw [hself, hpgno]
    exact fun _ => hn
  · rwa [hself]
  · intro hm h
    obtain ⟨hdirty, hall⟩ := h slot hn
    rw [hself] at hdirty
    obtain ⟨hold, hst⟩ := hclean hdirty hall
    dsimp only
    rw [hst]
    refine hc.saved n hm fun i hin => ?_
    obtain rfl := Option.some.inj (hin.symm.trans hn)
    exact hold

theorem get (ha : s.Allowed (.get n)) : ∃ t, s.step (.get n) = .ok t ∧ t.Coherent := by
  obtain ⟨hn, hover⟩ := ha
  have hn0 := (hc.ne_zero hn).1
  rw [step]
  rcases get_cases hc.shaped hn0 with ⟨slot, hi, hg⟩ | ⟨-, -, hg⟩ | ⟨slot, hi, he, hg⟩ <;> rw [hg]
  · have hlt := hc.shaped.slots n slot hi
    refine ⟨_, rfl, hc.setFrame hi (hc.bound n slot hi).1 (hc.shaped.length_frame hlt) ?_ ?_ ?_
      (fun _ _ => rfl) (hc.size n hn) (hc.cached n slot hi) ?_ ?_⟩
    · intro h hh
      rcases mem_cons.mp hh with rfl | hh
      · exact hi
      · exact hc.held h hh
    · have hval : ((s.pager.frame slot).pins + 1).toNat = (s.pager.frame slot).pins.toNat + 1 := by
        have h1 := hover slot hi
        have h2 : ((s.pager.frame slot).pins + 1).toNat ≠ 0 := fun h => h1 (UInt32.toNat_inj.mp h)
        rw [UInt32.toNat_add, UInt32.toNat_one] at h2 ⊢
        have := (s.pager.frame slot).pins.toNat_lt
        omega
      simp [hval, hc.pins slot hlt]
    · intro i hne
      simp [Ne.symm hne]
    · exact fun i _ hall h hh => hall h (mem_cons_of_mem _ hh)
    · exact fun hd hall => ⟨⟨hd, fun h hh => hall h (mem_cons_of_mem _ hh)⟩, rfl⟩
  · exact ⟨_, rfl, hc.evict.1⟩
  · obtain ⟨hev, hvac, hidx⟩ := hc.evict
    have hfile := hev.onFile hn (hidx n hi)
    exact ⟨_, rfl, hev.occupy (hvac slot he) (hidx n hi) (length_load ..) hev.ledger hn
      (fun _ _ => .rfl) (fun _ _ => rfl) (hev.size n hn) (hfile.load hn0) fun _ => hfile⟩

theorem nextPage (hr : s.pager.Roomy) :
    ({ s with pager := s.pager.nextPage.1 } : Session).Coherent := by
  have hl := (hc.ledger.nextPage hr).lose
  have hsh := (shaped_nextPage hc.shaped).1
  rcases nextPage_cases s.pager with ⟨init, pgno, -, hnext⟩ | ⟨-, hnext⟩ <;>
    rw [hnext] at hl hsh ⊢ <;>
    exact ⟨hsh, hl, hc.bound, hc.indexed, hc.held, hc.pins, hc.size, hc.cached, hc.saved⟩

theorem allocate (ha : s.Allowed .allocate) : ∃ t, s.step .allocate = .ok t ∧ t.Coherent := by
  have hfresh := hc.ledger.nextPage_fresh.2
  obtain ⟨hev, hvac, -⟩ := (hc.nextPage ha).evict
  have hl := (hc.ledger.nextPage ha).quiet
    (evict_quiet s.pager.nextPage.1 (shaped_nextPage hc.shaped).1).1
  rw [step]
  rcases allocate_cases hc.shaped with ⟨-, hg⟩ | ⟨slot, he, hg⟩ <;> rw [hg]
  · exact ⟨_, rfl, hev⟩
  · refine ⟨_, rfl, hev.occupy (hvac slot he) ?_ (length_replicate ..) hl mem_cons_self
      ?_ ?_ ?_ ?_ fun h => nomatch h⟩
    · rcases hi : s.pager.nextPage.1.evict.1.index s.pager.nextPage.2 with _ | i
      · rfl
      · exact (hfresh (hev.bound _ i hi).2).elim
    · intro m hm
      simp [hm]
    · exact fun m hm => update_of_ne hm ..
    · rw [update_self, length_replicate]
      rfl
    · rw [update_self]
      rfl

theorem write {i off : ℕ} {bytes : Bytes} :
    ∃ t, s.step (.write i off bytes) = .ok t ∧ t.Coherent := by
  rw [step]
  rcases hh : s.handles[i]? with _ | h
  · exact ⟨s, rfl, hc⟩
  · obtain ⟨hlt, hget⟩ := List.getElem?_eq_some_iff.mp hh
    have hmem : h ∈ s.handles := hget ▸ getElem_mem hlt
    have hi := hc.held h hmem
    have halloc := (hc.bound _ _ hi).2
    have hslot := hc.shaped.slots _ _ hi
    have hslots : (s.handles.set i { h with modified := true }).map Handle.slot =
        s.handles.map Handle.slot := by
      rw [map_set]
      exact set_getElem_self (by simpa using hlt) ▸ by simp [hget]
    have hset : ∀ h', h' ∈ s.handles.set i { h with modified := true } →
        h' = { h with modified := true } ∨ h' ∈ s.handles := fun h' h1 =>
      (mem_or_eq_of_mem_set h1).symm
    refine ⟨_, rfl, hc.setFrame hi (hc.bound _ _ hi).1 ?_ ?_ ?_ ?_ ?_ ?_ ?_ ?_ ?_⟩
    · rw [length_overlay]
      exact hc.shaped.length_frame hslot
    · intro h' h1
      rcases hset h' h1 with rfl | h1
      · exact hi
      · exact hc.held h' h1
    · rw [hslots]
      exact hc.pins _ hslot
    · rw [hslots]
      exact fun _ _ => rfl
    · exact fun m hm => update_of_ne hm ..
    · rw [update_self, length_overlay]
      exact hc.size _ halloc
    · rw [update_self, body_overlay, body_overlay, hc.cached _ _ hi]
    · intro j hj hall h' h1 he
      obtain ⟨k, hk, rfl⟩ := getElem_of_mem h1
      have hne : i ≠ k := by
        rintro rfl
        exact hj (he.symm.trans (congrArg Handle.slot hget))
      refine hall s.handles[k] ?_ he
      rw [← getElem_set_ne hne (by simpa using hk)]
      exact getElem_mem _
    · intro _ hall
      have := hall { h with modified := true } (@List.mem_set _ _ _ hlt _) rfl
      cases this

theorem unpin {i : ℕ} (ha : s.Allowed (.unpin i dirty)) :
    ∃ t, s.step (.unpin i dirty) = .ok t ∧ t.Coherent := by
  rw [step]
  rcases hh : s.handles[i]? with _ | h
  · exact ⟨s, rfl, hc⟩
  · obtain ⟨hlt, hget⟩ := List.getElem?_eq_some_iff.mp hh
    have hperm : (h :: s.handles.eraseIdx i).Perm s.handles :=
      hget ▸ getElem_cons_eraseIdx_perm hlt
    have hmem : h ∈ s.handles := hperm.mem_iff.mp mem_cons_self
    have hi := hc.held h hmem
    have halloc := (hc.bound _ _ hi).2
    have hslot := hc.shaped.slots _ _ hi
    have hcount : ∀ j, (s.handles.map Handle.slot).count j =
        ((s.handles.eraseIdx i).map Handle.slot).count j + if h.slot = j then 1 else 0 := by
      intro j
      rw [← (hperm.map Handle.slot).count_eq j, map_cons, count_cons]
      simp
    refine ⟨_, rfl, hc.setFrame hi (hc.bound _ _ hi).1 (hc.shaped.length_frame hslot) ?_ ?_ ?_
      (fun _ _ => rfl) (hc.size _ halloc) (hc.cached _ _ hi) ?_ ?_⟩
    · exact fun h' h1 => hc.held h' (mem_of_mem_eraseIdx h1)
    · have hp := hc.pins _ hslot
      rw [hcount, if_pos rfl] at hp
      have hle : (1 : UInt32) ≤ (s.pager.frame h.slot).pins := by
        rw [UInt32.le_iff_toNat_le, hp]
        simp
      rw [UInt32.toNat_sub_of_le _ _ hle, hp]
      simp
    · intro j hj
      rw [hcount j, if_neg (Ne.symm hj)]
      rfl
    · intro j hj hall h' h1 he
      rcases mem_cons.mp (hperm.mem_iff.mpr h1) with rfl | h1
      · exact (hj he.symm).elim
      · exact hall h' h1 he
    · intro hd hall
      rw [Bool.or_eq_false_iff] at hd
      refine ⟨⟨hd.1, fun h' h1 he => ?_⟩, rfl⟩
      rcases mem_cons.mp (hperm.mem_iff.mpr h1) with rfl | h1
      · have := ha h' hh
        rcases hm : h'.modified with _ | _
        · rfl
        · rw [this hm] at hd
          cases hd.2
      · exact hall h' h1 he

theorem free (ha : s.Allowed (.free n)) : ∃ t, s.step (.free n) = .ok t ∧ t.Coherent := by
  obtain ⟨hn, hheld⟩ := ha
  have hl := hc.ledger.freePage hn
  have hnodup := (nodup_append.mp hc.ledger.nodup).1
  have herase : ∀ m, m ≠ n → (m ∈ s.alloc.erase n ↔ m ∈ s.alloc) := fun m hm =>
    mem_erase_of_ne hm
  rw [step]
  rcases hi : s.pager.index n with _ | slot
  · -- not resident: only the ledger changes
    have heq : s.pager.freePage n = { s.pager with free := s.pager.free ++ [n] } := by
      simp only [Pager.freePage, Pager.dropFrame, hi]
    have hne : ∀ m i, s.pager.index m = some i → m ≠ n := by
      rintro m i h rfl
      rw [hi] at h
      cases h
    have hsub : ∀ m ∈ s.alloc.erase n, m ∈ s.alloc := fun m hm => mem_of_mem_erase hm
    refine ⟨_, rfl, ?_⟩
    rw [heq] at hl ⊢
    exact ⟨⟨hc.shaped.frames, hc.shaped.slots, hc.shaped.hand, hc.shaped.text⟩, hl,
      fun m i h => ⟨(hc.bound m i h).1, (herase m (hne m i h)).mpr (hc.bound m i h).2⟩,
      hc.indexed, hc.held, hc.pins, fun m hm => hc.size m (hsub m hm), hc.cached,
      fun m hm => hc.saved m (hsub m hm)⟩
  · have hlt := hc.shaped.slots n slot hi
    have hb := (hc.bound n slot hi).1
    have hpins : (s.pager.frame slot).pins = 0 := by
      apply UInt32.toNat_inj.mp
      rw [hc.pins slot hlt, UInt32.toNat_zero, count_eq_zero]
      intro hmem
      obtain ⟨h, hh, he⟩ := mem_map.mp hmem
      have := hc.held h hh
      rw [he] at this
      exact hheld h hh ((hc.bound _ _ this).1.symm.trans hb)
    have heq : s.pager.freePage n = { s.pager.setFrame slot { s.pager.frame slot with
        pgno := 0, dirty := false, ref := false } with
        index := update s.pager.index (s.pager.frame slot).pgno none
        free := s.pager.free ++ [n] } := by
      rw [hb]
      simp only [Pager.freePage, Pager.dropFrame, hi]
      rfl
    refine ⟨_, rfl, hc.unbind hlt ?_ hpins ?_ heq hl (by rw [hb]; exact herase) ?_⟩
    · rw [hb]
      exact (hc.ne_zero hn).1
    · exact ⟨rfl, hpins, hc.shaped.length_frame hlt⟩
    · rw [hb]
      exact fun hmem => ((List.Nodup.mem_erase_iff hnodup).mp hmem).1.elim rfl

theorem step (a : Access) (ha : s.Allowed a) : ∃ t, s.step a = .ok t ∧ t.Coherent := by
  cases a with
  | allocate => exact hc.allocate ha
  | get n => exact hc.get ha
  | write i off bytes => exact hc.write
  | unpin i dirty => exact hc.unpin ha
  | free n => exact hc.free ha

end

end Coherent

theorem start_coherent {file : MemData} {opts : Options} (h : create file opts = .ok p) :
    (start p).Coherent := by
  obtain ⟨hshape, hfree, hdb, -⟩ := create_spec h
  obtain ⟨hpool, hindex⟩ := create_pool h
  have hframe : ∀ i < p.pool.length, (p.frame i).pgno = 0 ∧ (p.frame i).pins = 0 :=
    fun i hi => hpool _ (frame_mem hi)
  constructor <;> dsimp only [start]
  · exact hshape
  · constructor <;> simp [hfree, hdb]
  · simp [hindex]
  · exact fun i hi h0 => (h0 (hframe i hi).1).elim
  · simp
  · intro i hi
    simp [(hframe i hi).2]
  · simp
  · simp [hindex]
  · simp

/-- In every run of allowed calls, for every pool size, reading a page in use gives the bytes
last written to it, up to the checksum, or reports that every frame is pinned. -/
theorem get_reads_store {file : MemData} {opts : Options} {calls : List Access}
    (hp : create file opts = .ok p) (ha : Along step Allowed (start p) calls) :
    ∃ s, exec step (start p) calls = .ok s ∧ ∀ n ∈ s.alloc,
      (∃ slot, (s.pager.get n).2 = .ok slot ∧
        body ((s.pager.get n).1.frame slot).data = body (s.store n)) ∨
      (s.pager.get n).2 = .error .exhausted ∧
        ∀ i < s.pager.pool.length, (s.pager.frame i).pins ≠ 0 := by
  obtain ⟨s, he, hc⟩ := ha.exec (fun s a hc ha => Coherent.step hc a ha) (start_coherent hp)
  refine ⟨s, he, fun n hn => ?_⟩
  have hn0 := (hc.ne_zero hn).1
  rcases get_cases hc.shaped hn0 with ⟨slot, hi, hg⟩ | ⟨-, he, hg⟩ | ⟨slot, hi, he, hg⟩ <;> rw [hg]
  · refine .inl ⟨slot, rfl, ?_⟩
    rw [pin, frame_setFrame (hc.shaped.slots n slot hi)]
    exact hc.cached n slot hi
  · exact .inr ⟨rfl, evict_none s.pager hc.shaped.hand he⟩
  · obtain ⟨hev, hvac, hidx⟩ := hc.evict
    refine .inl ⟨slot, rfl, ?_⟩
    have hfile := hev.onFile hn (hidx n hi)
    have hfr : (occupied s.pager.evict.1 slot n (s.pager.evict.1.load n) false).frame slot =
        ⟨n, s.pager.evict.1.load n, (s.pager.evict.1.frame slot).pins + 1, false, true⟩ :=
      frame_setFrame (hvac slot he).1
    rw [hfr]
    exact hfile.load hn0

section Evaluate

instance (s : Session) : ∀ a, Decidable (s.Allowed a)
  | .allocate => inferInstanceAs (Decidable (Roomy _))
  | .get _ => inferInstanceAs (Decidable (_ ∧ _))
  | .write _ _ _ => .isTrue trivial
  | .unpin i dirty =>
    inferInstanceAs (Decidable (∀ h ∈ s.handles[i]?, h.modified = true → dirty = true))
  | .free _ => inferInstanceAs (Decidable (_ ∧ _))

end Evaluate

theorem get_reads_store_evicted :
    ∃ p, create MemData.empty { pageSize := 4096, cacheFrames := 1 } = .ok p ∧
      ∃ s, exec step (start p) [.allocate, .write 0 7 [1, 2], .unpin 0 true, .allocate,
        .unpin 0 true, .get 2, .unpin 0 false] = .ok s ∧ ∀ n ∈ s.alloc,
      (∃ slot, (s.pager.get n).2 = .ok slot ∧
        body ((s.pager.get n).1.frame slot).data = body (s.store n)) ∨
      (s.pager.get n).2 = .error .exhausted ∧
        ∀ i < s.pager.pool.length, (s.pager.frame i).pins ≠ 0 := by
  have h : ∃ p, create MemData.empty { pageSize := 4096, cacheFrames := 1 } = .ok p ∧
      Along step Allowed (start p) [.allocate, .write 0 7 [1, 2], .unpin 0 true, .allocate,
        .unpin 0 true, .get 2, .unpin 0 false] := by decide +kernel
  obtain ⟨p, hp, ha⟩ := h
  exact ⟨p, hp, get_reads_store hp ha⟩

/-- With one frame, which page 3 keeps pinned, page 2 cannot be read. -/
theorem get_fails_when_pinned :
    ∃ p, create MemData.empty { pageSize := 4096, cacheFrames := 1 } = .ok p ∧
      ∃ s, exec step (start p) [.allocate, .unpin 0 true, .allocate] = .ok s ∧
        2 ∈ s.alloc ∧ (s.pager.get 2).2 = .error .exhausted := by
  decide +kernel

/-- In every run of allowed calls a page in hand stays in its frame, no two pages share a frame,
the pins of a frame are the handles on it, and what was written to a page is on file unless its
frame is dirty or a handle on it has written. -/
theorem pinned_pages_stay {file : MemData} {opts : Options} {calls : List Access}
    (hp : create file opts = .ok p) (ha : Along step Allowed (start p) calls) :
    ∃ s, exec step (start p) calls = .ok s ∧
      (∀ h ∈ s.handles, (s.pager.frame h.slot).pgno = h.pgno ∧ h.pgno ∈ s.alloc) ∧
      (∀ n m i, s.pager.index n = some i → s.pager.index m = some i → n = m) ∧
      (∀ i < s.pager.pool.length,
        (s.pager.frame i).pins.toNat = (s.handles.map Handle.slot).count i) ∧
      ∀ n ∈ s.alloc, (∀ i, s.pager.index n = some i → s.Clean i) →
        OnFile s.pager n (s.store n) := by
  obtain ⟨s, he, hc⟩ := ha.exec (fun s a hc ha => Coherent.step hc a ha) (start_coherent hp)
  refine ⟨s, he, fun h hh => hc.bound _ _ (hc.held h hh), fun n m i hn hm => ?_, hc.pins, hc.saved⟩
  exact (hc.bound n i hn).1.symm.trans (hc.bound m i hm).1

theorem pinned_pages_stay_two : ∃ p s,
    exec step (start p) [.allocate, .get 2, .allocate, .unpin 0 true] = .ok s ∧
      ∀ h ∈ s.handles, (s.pager.frame h.slot).pgno = h.pgno ∧ h.pgno ∈ s.alloc := by
  obtain ⟨p, hp, ha⟩ : ∃ p, create .empty { pageSize := 4096, cacheFrames := 2 } = .ok p ∧
      Along step Allowed (start p) [.allocate, .get 2, .allocate, .unpin 0 true] := by
    decide +kernel
  obtain ⟨s, he, hh, -⟩ := pinned_pages_stay hp ha
  exact ⟨p, s, he, hh⟩

end Session

end VecDb.Pager
