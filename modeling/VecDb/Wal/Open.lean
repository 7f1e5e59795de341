import VecDb.Wal.Truncate

/-! # Opening an arbitrary file

`Open` accepts every file `Recover` accepts, and `Recover` takes a file without
a readable header for an empty log. What is then appended overwrites the place of
the header and is never read back.
-/

namespace VecDb.Wal

open Bytes Vfs List Replay

/-- A checkpoint frame holds the 8 bytes that recovery reads from it. -/
def Frame.WellFormed (f : Frame) : Prop :=
  FrameType.ofByte f.type = some .checkpoint → 8 ≤ f.payload.length

/-- The frames that chain from the writer's position into the bytes past it are well formed. -/
def WAL.TailSafe (w : WAL) : Prop :=
  ∀ f ∈ ((codec w.salt).scan w.lastSum (w.file.live.drop w.tailOff)).1, f.WellFormed

section Replay

theorem Replay.frame_ok_iff {r : Replay} {f : Frame} :
    (∃ r', r.frame f = .ok r') ↔ f.WellFormed := by
  unfold frame Frame.WellFormed
  rcases FrameType.ofByte f.type with _ | _ | _ | _ | _
  all_goals dsimp only
  case some.checkpoint =>
    split
    · simpa using ‹_›
    · simpa using not_lt.mp ‹_›
  all_goals simp

theorem Replay.run_ok_iff {r : Replay} {fs : List Frame} :
    (∃ r', r.run fs = .ok r') ↔ ∀ f ∈ fs, f.WellFormed := by
  induction fs generalizing r with
  | nil => simp
  | cons f fs ih =>
    rw [run_cons, forall_mem_cons, ← @frame_ok_iff r]
    rcases r.frame f with e | r'
    · simp [bind, Except.bind]
    · simpa [bind, Except.bind] using ih

theorem Replay.batches_frame {r r' : Replay} {f : Frame} (h : r.frame f = .ok r') :
    r.batches ⊆ r'.batches := by
  unfold frame at h
  split at h
  · cases h; exact List.Subset.refl _
  · cases h; exact subset_append_left ..
  · split at h
    · cases h
    · cases h; exact List.Subset.refl _
  · cases h; exact List.Subset.refl _
  · cases h; exact List.Subset.refl _

theorem Replay.batches_run {r r' : Replay} {fs : List Frame} (h : r.run fs = .ok r') :
    r.batches ⊆ r'.batches := by
  have h : exec frame r fs = .ok r' := h
  refine exec_invariant (I := fun t => r.batches ⊆ t.batches) ?_ (List.Subset.refl _) h
  exact fun t f t' ht _ hs => List.Subset.trans ht (batches_frame hs)

end Replay

section Readable

variable {s : Run} {hdr stale : Bytes} {fs : List Frame} {r : Replay}

theorem HeaderOk.eq_log {c : Bytes} (h : HeaderOk c) :
    ∃ hdr fs stale, IsHeader hdr ∧ c = logBytes hdr fs ++ stale ∧ (∀ f ∈ fs, f.Fits) ∧
      Frame.decode (headerSalt hdr) (logSum hdr fs) stale = none := by
  have hlen : (c.take headerSize).length = headerSize := by
    rw [length_take, Nat.min_eq_left h.1]
  have hsplit : c.take headerSize ++ c.drop headerSize = c := take_append_drop ..
  obtain ⟨hsalt, hsum, hmagic, hbody⟩ := header_append hlen (c.drop headerSize)
  rw [hsplit] at hsalt hsum hmagic hbody
  obtain ⟨hfits, hdrop, hnone⟩ := (codec (headerSalt c)).scan_sound (headerSum c)
    (c.drop headerSize)
  refine ⟨c.take headerSize, (chained c).1, (chained c).2, ⟨hlen, hlen.ge, ?_, ?_⟩, ?_, hfits, ?_⟩
  · rw [← hmagic]; exact h.2.1
  · rw [← hsum, ← hbody]; exact h.2.2
  · rw [logBytes, ← hsalt, ← hsum, append_assoc]
    exact hsplit.symm.trans (congrArg _ hdrop)
  · rw [← hsalt, logSum, ← hsalt, ← hsum]
    exact hnone

theorem recover_batches {file : Bytes} (h : HeaderOk file) :
    (recover file).map RecoverResult.batches = (run {} (chained file).1).map batches := by
  rw [recover_of_headerOk h]
  rcases run {} (chained file).1 with e | r <;> rfl

theorem Run.OnLog.recover_tail (h : s.OnLog hdr fs stale r) :
    (Wal.recover s.wal.file.live).map RecoverResult.batches =
      (r.run ((codec s.wal.salt).scan s.wal.lastSum (s.wal.file.live.drop s.wal.tailOff)).1).map
        batches := by
  have hok : HeaderOk s.wal.file.live := by
    rw [h.tracks.live, logBytes, append_assoc]; exact h.tracks.header.append
  have htail : s.wal.file.live.drop s.wal.tailOff = stale := by
    rw [h.tracks.live, h.tracks.tailOff, drop_left' rfl]
  rw [recover_batches hok, htail, h.tracks.salt, h.tracks.lastSum, h.tracks.live,
    chained_log h.tracks.header.1 h.fits, run_append, h.replay]
  rfl

/-- A session on a readable log; the batches it committed are among those of the replay. -/
structure Run.Resumed (s : Run) (hdr : Bytes) (fs : List Frame) (stale : Bytes) (r : Replay) :
    Prop extends s.OnLog hdr fs stale r where
  pending : s.pending ⊆ r.pending
  committed : s.committed.map Prod.fst ⊆ r.batches

theorem Run.resumed_step (s : Run) (op : Op) (h : ∃ hdr fs stale r, s.Resumed hdr fs stale r)
    (hop : op.isAppend ∧ op.Fits) :
    ∃ s', s.step op = .ok s' ∧ ∃ hdr fs stale r, s'.Resumed hdr fs stale r := by
  obtain ⟨hdr, fs, stale, r, h⟩ := h
  cases op with
  | logBatch version encoded =>
    refine ⟨_, rfl, hdr, _, _, _, h.toOnLog.logBatch version hop.2, ?_, h.committed⟩
    exact append_subset.mpr ⟨subset_append_of_subset_left _ h.pending, subset_append_right ..⟩
  | commit version =>
    refine ⟨_, rfl, hdr, _, _, _, h.toOnLog.commit version, nil_subset _, ?_⟩
    simp only [Run.commit, map_append, map_map, Function.comp_def, map_id']
    exact append_subset.mpr ⟨subset_append_of_subset_left _ h.committed,
      subset_append_of_subset_right _ h.pending⟩
  | checkpointed f | reopen opts => exact absurd hop.1 (by simp [Op.isAppend])

theorem Run.Resumed.recover_iff (h : s.Resumed hdr fs stale r) (hc : s.committed ≠ []) :
    (∀ b ∈ s.committed, ∃ res, Wal.recover s.wal.file.live = .ok res ∧ b.1 ∈ res.batches) ↔
      s.wal.TailSafe := by
  have hrec := h.toOnLog.recover_tail
  rw [WAL.TailSafe, ← @Replay.run_ok_iff r]
  constructor
  · intro hall
    obtain ⟨b, hb⟩ := exists_mem_of_ne_nil _ hc
    obtain ⟨res, hres, _⟩ := hall b hb
    rw [hres] at hrec
    rcases hr : r.run _ with e | r'
    · rw [hr] at hrec; cases hrec
    · exact ⟨r', rfl⟩
  · rintro ⟨r', hr'⟩ b hb
    rw [hr'] at hrec
    rcases hres : Wal.recover s.wal.file.live with e | res
    · rw [hres] at hrec; cases hrec
    · rw [hres] at hrec
      have hbs : res.batches = r'.batches := Except.ok.inj hrec
      refine ⟨res, rfl, hbs ▸ Replay.batches_run hr' (h.committed ?_)⟩
      exact mem_map_of_mem hb

theorem Run.resumed_open {file : MemData} {opts : Options} {w : WAL} {res : RecoverResult}
    (ho : openWal file opts = .ok (w, res)) (hok : HeaderOk file.live) :
    ∃ hdr fs stale r, Run.Resumed { wal := w } hdr fs stale r := by
  obtain ⟨hdr, fs, stale, hh, hl, hf, hd⟩ := hok.eq_log
  have hrec := recover_log hh hf hd
  rw [← hl] at hrec
  rcases hr : run {} fs with e | r
  · rw [hr] at hrec
    rw [openWal, hrec] at ho
    cases ho
  · obtain ⟨w', res', ho', ht, _⟩ := openWal_log hh hl hf hd hr opts
    obtain ⟨rfl, rfl⟩ := Prod.mk.inj (Except.ok.inj (ho.symm.trans ho'))
    exact ⟨hdr, fs, stale, r, ⟨ht, hf, hr⟩, nil_subset _, nil_subset _⟩

end Readable

section Unreadable

variable {s : Run} {c : Bytes}

/-- Nothing was appended yet, or a frame lies where the header should be. -/
def Run.Headless (s : Run) : Prop :=
  (s.wal.tailOff = 0 ∧ s.committed = [] ∧ s.pending = []) ∨
    (0 < s.wal.tailOff ∧ ∃ ft : FrameType, s.wal.file.live.head? = some ft.toByte)

theorem HeaderOk.head (h : HeaderOk c) : c.head? = some 0x76 := by
  have hlen : (slice c 0 4).length = 4 := length_slice (by
    have := h.1
    simp only [headerSize] at this
    omega)
  have hb := be32_getBE hlen
  have hm : UInt32.ofNat (getBE (slice c 0 4)) = walMagic := h.2.1
  rw [hm] at hb
  have hhead : (slice c 0 4).head? = c.head? := by simp [slice, head?_take]
  rw [← hhead, ← hb]
  decide

theorem not_headerOk_of_frame {ft : FrameType} (h : c.head? = some ft.toByte) : ¬ HeaderOk c := by
  intro hok
  have := hok.head.symm.trans h
  cases ft <;> simp [FrameType.toByte] at this

theorem head_writeAt {f p : Bytes} {off : ℕ} {x : UInt8} (ho : 0 < off) (hf : f.head? = some x) :
    (writeAt f off p).head? = some x := by
  rcases f with _ | ⟨y, f⟩
  · cases hf
  · obtain ⟨n, rfl⟩ := Nat.exists_eq_add_of_lt ho
    simpa [writeAt] using hf

theorem Run.Headless.appendFrame (h : s.Headless) (ft : FrameType) (version : UInt64)
    (payload : Bytes) : 0 < (s.wal.appendFrame ft version payload).tailOff ∧ ∃ t : FrameType,
      (s.wal.appendFrame ft version payload).file.live.head? = some t.toByte := by
  refine ⟨by simp [WAL.appendFrame, headerSansSum], ?_⟩
  rcases h with ⟨ht, _⟩ | ⟨ht, t, hhead⟩
  · exact ⟨ft, by simp [WAL.appendFrame, ht, writeAt, headerSansSum]⟩
  · exact ⟨t, head_writeAt ht hhead⟩

theorem Run.headless_step (s : Run) (op : Op) (h : s.Headless) (hop : op.isAppend) :
    ∃ s', s.step op = .ok s' ∧ s'.Headless := by
  cases op with
  | logBatch version encoded =>
    exact ⟨_, rfl, .inr (h.appendFrame .opBatch version encoded)⟩
  | commit version =>
    refine ⟨_, rfl, .inr ?_⟩
    have hsync := WAL.sync_fields
      { s.wal.appendFrame .commit version (be32 s.wal.batchN) with batchN := 0 }
    have hlive := WAL.live_sync
      { s.wal.appendFrame .commit version (be32 s.wal.batchN) with batchN := 0 }
    simp only [Run.commit, WAL.commit]
    rw [hsync.1, hlive]
    exact h.appendFrame .commit version (be32 s.wal.batchN)
  | checkpointed f | reopen opts => cases hop

theorem Run.headless_open {file : MemData} {opts : Options} {w : WAL} {res : RecoverResult}
    (ho : openWal file opts = .ok (w, res)) (hok : ¬ HeaderOk file.live) :
    Run.Headless { wal := w } := by
  rw [openWal, recover_of_not_headerOk hok] at ho
  cases ho
  exact .inl ⟨rfl, rfl, rfl⟩

theorem Run.Headless.recover (h : s.Headless) (hc : s.committed ≠ []) :
    Wal.recover s.wal.file.live = .ok {} := by
  rcases h with ⟨_, hnil, _⟩ | ⟨_, ft, hhead⟩
  · exact absurd hnil hc
  · exact recover_of_not_headerOk (not_headerOk_of_frame hhead)

end Unreadable

/-- What is committed through an opened file is read back exactly when the file had a readable
header, the payloads fit and the bytes past the log do not trip recovery. -/
theorem open_recover_iff {file : MemData} {opts : Options} {w : WAL} {res : RecoverResult}
    (ho : openWal file opts = .ok (w, res)) (ops : List Op) (hops : ∀ op ∈ ops, op.isAppend) :
    ∃ s, exec Run.step { wal := w } ops = .ok s ∧ ((∀ b ∈ s.pending, b.Fits) →
      ((∀ b ∈ s.committed, ∃ res, recover s.wal.file.live = .ok res ∧ b.1 ∈ res.batches) ↔
        s.committed = [] ∨
          (HeaderOk file.live ∧ (∀ b ∈ s.committed, b.1.Fits) ∧ s.wal.TailSafe))) := by
  obtain ⟨s, hs⟩ := Run.exec_append hops { wal := w }
  refine ⟨s, hs, fun hpend => ?_⟩
  by_cases hc : s.committed = []
  · simp [hc]
  by_cases hok : HeaderOk file.live
  · have hback : (∀ b ∈ s.committed, b.1.Fits) →
        ((∀ b ∈ s.committed, ∃ res, recover s.wal.file.live = .ok res ∧ b.1 ∈ res.batches) ↔
          s.wal.TailSafe) := by
      intro hcom
      obtain ⟨s', hs', hdr, fs, stale, r, hres⟩ := Along.exec Run.resumed_step
        (Run.resumed_open ho hok) (Run.along_fits hops hs hcom hpend)
      cases hs.symm.trans hs'
      exact hres.recover_iff hc
    simp only [hc, false_or, hok, true_and]
    constructor
    · intro hall
      have hcom : ∀ b ∈ s.committed, b.1.Fits := fun b hb => by
        obtain ⟨res, hres, hmem⟩ := hall b hb
        exact recover_fits hres b.1 hmem
      exact ⟨hcom, (hback hcom).mp hall⟩
    · exact fun ⟨hcom, hsafe⟩ => (hback hcom).mpr hsafe
  · have hp : Along Run.step (fun _ op => op.isAppend) { wal := w } ops :=
      Along.of_forall fun op hop _ => hops op hop
    obtain ⟨s', hs', hh⟩ := Along.exec Run.headless_step (Run.headless_open ho hok) hp
    cases hs.symm.trans hs'
    simp only [hc, hok, false_and, or_self, iff_false, hh.recover hc]
    intro hall
    obtain ⟨b, hb⟩ := exists_mem_of_ne_nil _ hc
    obtain ⟨_, hres, hmem⟩ := hall b hb
    cases hres
    simp at hmem

theorem open_recover_iff_fresh :
    ∃ w res, openWal (create .empty {}).file {} = .ok (w, res) ∧
      ∃ s, exec Run.step { wal := w } [.logBatch 1 [7], .commit 2] = .ok s ∧
        ((∀ b ∈ s.pending, b.Fits) →
          ((∀ b ∈ s.committed, ∃ res, recover s.wal.file.live = .ok res ∧ b.1 ∈ res.batches) ↔
            s.committed = [] ∨ (HeaderOk (create .empty {}).file.live ∧
              (∀ b ∈ s.committed, b.1.Fits) ∧ s.wal.TailSafe))) := by
  have ho : ∃ p, openWal (create .empty {}).file {} = .ok p ∧ True := by decide +kernel
  obtain ⟨⟨w, res⟩, ho, _⟩ := ho
  exact ⟨w, res, ho, open_recover_iff ho _ (by simp [Op.isAppend])⟩

/-- An empty file opens without an error, and what is committed to it is lost. -/
theorem open_empty_loses_commit :
    ∃ p, openWal .empty {} = .ok p ∧
      ∃ s, exec Run.step { wal := p.1 } [.logBatch 1 [7], .commit 2] = .ok s ∧
        ∃ res, recover s.wal.file.live = .ok res ∧
          s.committed.map Prod.fst = [⟨1, 1, [7]⟩] ∧ res.batches = [] := by
  decide +kernel

end VecDb.Wal
