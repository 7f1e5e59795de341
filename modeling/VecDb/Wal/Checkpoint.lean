import VecDb.Wal.History

/-! # Checkpoints, salt rotation and LSNs

A checkpoint rewinds the writer to the header of a new generation, over the stale frames of the
old one. Recovery keeps every batch past the largest folded LSN if each checkpoint folds all, each
reopen finds a frame of the current generation, and no stale bytes chain.
-/

namespace VecDb.Wal

open Bytes Vfs List UInt64

/-- The bytes past the append offset do not decode as the next frame. -/
def WAL.TailUnreadable (w : WAL) : Prop :=
  Frame.decode w.salt w.lastSum (w.file.live.drop w.tailOff) = none

/-- The largest LSN a checkpoint has folded, 0 before the first one. -/
def Run.boundary (s : Run) : UInt64 := s.folded.foldl max 0

/-- The LSNs of the op-batch and commit frames, in the order they were appended. -/
def Run.appended (s : Run) : List UInt64 :=
  (s.assigned.filter fun a => a.1 ≠ .checkpoint).map Prod.snd

/-- The call folds everything appended so far, or leaves the log to be read back. -/
def Op.KeepsLog (s : Run) : Op → Prop
  | .logBatch _ encoded => encoded.length < 2 ^ 32 ∧ s.wal.lsn.toNat + 1 < 2 ^ 64
  | .commit _ => s.wal.lsn.toNat + 1 < 2 ^ 64
  | .checkpointed foldedLSN => foldedLSN ∈ s.commits ∧ foldedLSN + 1 = s.wal.lsn
  | .reopen _ => s.wal.TailUnreadable ∧ (s.folded = [] ∨ s.wal.tailOff ≠ headerSize)

instance (s : Run) (op : Op) : Decidable (op.KeepsLog s) := by
  unfold Op.KeepsLog WAL.TailUnreadable; cases op <;> infer_instance

/-- No frame is appended once a checkpoint was taken. -/
def Op.BeforeFold (s : Run) : Op → Prop
  | .reopen _ => True
  | _ => s.folded = []

section Order

theorem lt_succ_of_noWrap {x : UInt64} (h : x.toNat + 1 < 2 ^ 64) : x < x + 1 := by
  rw [lt_iff_toNat_lt, UInt64.toNat_add, toNat_one, Nat.mod_eq_of_lt h]
  omega

theorem foldl_max_lt {l : List UInt64} {m x : UInt64} :
    l.foldl max m < x ↔ m < x ∧ ∀ f ∈ l, f < x := by
  induction l generalizing m with
  | nil => simp
  | cons a l ih =>
    rw [foldl_cons, ih]
    have hmax : max m a < x ↔ m < x ∧ a < x := by
      change (if m ≤ a then a else m) < x ↔ _
      split <;> simp only [lt_iff_toNat_lt, le_iff_toNat_le] at * <;> omega
    simp [hmax, and_assoc]

end Order

theorem WAL.Tracks.checkpointed {w : WAL} {hdr stale : Bytes} {fs : List Frame}
    (h : w.Tracks hdr fs stale) (foldedLSN : UInt64) :
    ∃ hdr' stale', (w.checkpointed foldedLSN).Tracks hdr' [] stale' := by
  have hap := h.appendFrame .checkpoint 0 (be64 foldedLSN)
  set v := w.appendFrame .checkpoint 0 (be64 foldedLSN) with hv
  obtain ⟨hh, hsalt, hsum⟩ := (w.checkpointed foldedLSN).isHeader_headerBytes
  refine ⟨_, v.file.live.drop headerSize, hh, ?_, ?_, hsum.symm, hsalt.symm⟩
  · have hlen := hh.1
    have hlive : (w.checkpointed foldedLSN).file.live =
        writeAt v.file.live 0 (w.checkpointed foldedLSN).headerBytes := rfl
    rw [hlive, logBytes_nil, writeAt, hlen]
    simp
  · rw [logBytes_nil, hh.1]; rfl

section Keep

variable {s : Run} {hdr stale : Bytes} {fs : List Frame} {r : Replay}

/-- The batches that some commit frame has covered. -/
def Run.covered (s : Run) : List CommittedBatch := s.committed.map Prod.fst ++ s.promoted

/-- The current generation holds every covered batch past the folded LSNs. -/
structure Run.Kept (s : Run) (hdr : Bytes) (fs : List Frame) (stale : Bytes) (r : Replay) : Prop
    extends s.Held hdr fs stale r where
  lsn : s.folded = [] ∨ fs ≠ [] → s.wal.lsn = r.durableLSN + 1
  pos : 0 < s.wal.lsn
  commits_lt : ∀ c ∈ s.commits, c < s.wal.lsn
  folded_lt : ∀ f ∈ s.folded, f < s.wal.lsn
  batch_pos : ∀ b ∈ s.covered ++ r.pending, 0 < b.lsn
  batch_lt : ∀ b ∈ s.covered ++ r.pending, b.lsn < s.wal.lsn
  commits_lt_pending : ∀ c ∈ s.commits, ∀ b ∈ r.pending, c < b.lsn
  kept : ∀ b ∈ s.covered, (∀ f ∈ s.folded, f < b.lsn) → b ∈ r.batches
  increasing : s.appended.Pairwise (· < ·)
  appended_lt : ∀ l ∈ s.appended, l < s.wal.lsn

theorem Run.kept_fresh (opts : Options) :
    (fresh opts).Kept (create .empty opts).headerBytes [] [] {} := by
  refine ⟨(Run.logged_fresh opts).toHeld, fun _ => rfl, ?_, ?_, ?_, ?_, ?_, ?_, ?_, ?_, ?_⟩
  · change (0 : UInt64) < 1
    decide
  all_goals simp [fresh, Run.covered, Run.appended]

theorem Run.appended_logBatch (s : Run) (version : UInt64) (encoded : Bytes) :
    (s.logBatch version encoded).appended = s.appended ++ [s.wal.lsn] := by
  simp [Run.appended, Run.logBatch, filter_append]

theorem Run.appended_commit (s : Run) (version : UInt64) :
    (s.commit version).appended = s.appended ++ [s.wal.lsn] := by
  simp [Run.appended, Run.commit, filter_append]

theorem Run.appended_checkpointed (s : Run) (foldedLSN : UInt64) :
    (s.checkpointed foldedLSN).appended = s.appended := by
  simp [Run.appended, Run.checkpointed, filter_append]

theorem Run.mem_covered_commit (h : s.Held hdr fs stale r) (version : UInt64)
    (b : CommittedBatch) : b ∈ (s.commit version).covered ↔ b ∈ s.covered ++ r.pending := by
  simp only [Run.covered, Run.commit, h.pending, map_append, map_map,
    Function.comp_def, map_id', mem_append]
  tauto

theorem forall_lt_concat {l : List UInt64} {x y : UInt64} (h : ∀ a ∈ l, a < x) (hxy : x < y) :
    ∀ a ∈ l ++ [x], a < y := by
  intro a ha
  rcases mem_append.mp ha with ha | ha
  · exact UInt64.lt_trans (h a ha) hxy
  · rwa [mem_singleton.mp ha]

theorem pairwise_lt_concat {l : List UInt64} {x : UInt64} (hl : l.Pairwise (· < ·))
    (h : ∀ a ∈ l, a < x) : (l ++ [x]).Pairwise (· < ·) := by
  rw [pairwise_append]
  exact ⟨hl, pairwise_singleton .., fun a ha b hb => mem_singleton.mp hb ▸ h a ha⟩

theorem Run.Kept.logBatch (h : s.Kept hdr fs stale r) (version : UInt64) {encoded : Bytes}
    (hf : encoded.length < 2 ^ 32) (hw : s.wal.lsn.toNat + 1 < 2 ^ 64) :
    ∃ fs' stale' r', (s.logBatch version encoded).Kept hdr fs' stale' r' := by
  have hlt := lt_succ_of_noWrap hw
  have hmem : ∀ b ∈ s.covered ++ (r.pending ++ [⟨version, s.wal.lsn, encoded⟩]),
      b ∈ s.covered ++ r.pending ∨ b.lsn = s.wal.lsn := by
    intro b hb
    rw [← append_assoc, mem_append, mem_singleton] at hb
    exact hb.imp id fun hb => by rw [hb]
  refine ⟨_, _, _, h.toHeld.logBatch version hf, fun _ => rfl, UInt64.lt_trans h.pos hlt,
    fun c hc => UInt64.lt_trans (h.commits_lt c hc) hlt,
    fun f hf => UInt64.lt_trans (h.folded_lt f hf) hlt, fun b hb => ?_, fun b hb => ?_,
    fun c hc b hb => ?_, h.kept, ?_, ?_⟩
  · rcases hmem b hb with hb | hb
    · exact h.batch_pos b hb
    · rw [hb]; exact h.pos
  · rcases hmem b hb with hb | hb
    · exact UInt64.lt_trans (h.batch_lt b hb) hlt
    · rw [hb]; exact hlt
  · rcases mem_append.mp hb with hb | hb
    · exact h.commits_lt_pending c hc b hb
    · rw [mem_singleton.mp hb]; exact h.commits_lt c hc
  · rw [Run.appended_logBatch]
    exact pairwise_lt_concat h.increasing h.appended_lt
  · rw [Run.appended_logBatch]
    exact forall_lt_concat h.appended_lt hlt

theorem Run.Kept.commit (h : s.Kept hdr fs stale r) (version : UInt64)
    (hw : s.wal.lsn.toNat + 1 < 2 ^ 64) :
    ∃ fs' stale' r', (s.commit version).Kept hdr fs' stale' r' := by
  have hlt := lt_succ_of_noWrap hw
  have hlsn : (s.commit version).wal.lsn = s.wal.lsn + 1 := WAL.lsn_commit ..
  refine ⟨_, _, _, h.toHeld.commit version, fun _ => hlsn, ?_, ?_, ?_, ?_, ?_, ?_, ?_, ?_, ?_⟩
  · rw [hlsn]; exact UInt64.lt_trans h.pos hlt
  · rw [hlsn]; exact forall_lt_concat h.commits_lt hlt
  · rw [hlsn]; exact fun f hf => UInt64.lt_trans (h.folded_lt f hf) hlt
  · intro b hb
    rw [append_nil, Run.mem_covered_commit h.toHeld] at hb
    exact h.batch_pos b hb
  · intro b hb
    rw [append_nil, Run.mem_covered_commit h.toHeld] at hb
    rw [hlsn]
    exact UInt64.lt_trans (h.batch_lt b hb) hlt
  · simp
  · intro b hb hfold
    rw [Run.mem_covered_commit h.toHeld, mem_append] at hb
    exact mem_append.mpr (hb.imp (fun hb => h.kept b hb hfold) id)
  · rw [Run.appended_commit]
    exact pairwise_lt_concat h.increasing h.appended_lt
  · rw [Run.appended_commit, hlsn]
    exact forall_lt_concat h.appended_lt hlt

theorem Run.Kept.checkpointed {foldedLSN : UInt64} (h : s.Kept hdr fs stale r)
    (hc : foldedLSN ∈ s.commits) (hl : foldedLSN + 1 = s.wal.lsn) :
    ∃ hdr' stale', (s.checkpointed foldedLSN).Kept hdr' [] stale' {} := by
  have hlt : foldedLSN < s.wal.lsn := h.commits_lt foldedLSN hc
  have hle : ∀ x, x < s.wal.lsn → ¬ foldedLSN < x := by
    intro x hx
    have hw : foldedLSN.toNat + 1 < 2 ^ 64 := by
      have := UInt64.lt_iff_toNat_lt.mp hlt
      have := s.wal.lsn.toNat_lt
      omega
    rw [← hl, UInt64.lt_iff_toNat_lt, UInt64.toNat_add, UInt64.toNat_one, Nat.mod_eq_of_lt hw] at hx
    rw [UInt64.lt_iff_toNat_lt]
    omega
  have hpend : r.pending = [] := by
    refine eq_nil_iff_forall_not_mem.mpr fun b hb => ?_
    exact hle b.lsn (h.batch_lt b (mem_append_right _ hb))
      (h.commits_lt_pending foldedLSN hc b hb)
  have hlsn : (s.checkpointed foldedLSN).wal.lsn = s.wal.lsn := hl
  have hcov : ∀ b ∈ (s.checkpointed foldedLSN).covered ++ [], b ∈ s.covered ++ r.pending :=
    fun b hb => mem_append_left _ (by rwa [append_nil] at hb)
  obtain ⟨hdr', stale', ht⟩ := h.tracks.checkpointed foldedLSN
  refine ⟨hdr', stale', ⟨⟨ht, by simp, rfl⟩, ?_⟩, ?_, ?_, ?_, ?_, ?_, ?_, ?_, ?_, ?_, ?_⟩
  · exact hpend.symm.trans h.pending
  · simp [Run.checkpointed]
  · rw [hlsn]; exact h.pos
  · rw [hlsn]; exact h.commits_lt
  · intro f hf
    rw [hlsn]
    rcases mem_append.mp hf with hf | hf
    · exact h.folded_lt f hf
    · rwa [mem_singleton.mp hf]
  · exact fun b hb => h.batch_pos b (hcov b hb)
  · rw [hlsn]; exact fun b hb => h.batch_lt b (hcov b hb)
  · simp
  · intro b hb hfold
    have := hfold foldedLSN (by simp [Run.checkpointed])
    exact absurd this (hle b.lsn (h.batch_lt b (mem_append_left _ hb)))
  · rw [Run.appended_checkpointed]; exact h.increasing
  · rw [Run.appended_checkpointed, hlsn]; exact h.appended_lt

theorem WAL.Tracks.decode_tail {w : WAL} (h : w.Tracks hdr fs stale) (ht : w.TailUnreadable) :
    Frame.decode (headerSalt hdr) (logSum hdr fs) stale = none := by
  rw [WAL.TailUnreadable, h.salt, h.lastSum, h.live, h.tailOff, drop_left' rfl] at ht
  exact ht

theorem Run.Kept.reopen (h : s.Kept hdr fs stale r) (ht : s.wal.TailUnreadable)
    (hg : s.folded = [] ∨ s.wal.tailOff ≠ headerSize) (opts : Options) :
    ∃ w, s.step (.reopen opts) = .ok (s.reopened w) ∧ (s.reopened w).Kept hdr fs stale r ∧
      w.lsn = s.wal.lsn := by
  have hfs : s.folded = [] ∨ fs ≠ [] := by
    refine hg.imp id ?_
    rintro htail rfl
    exact htail (by rw [h.tracks.tailOff, logBytes_nil, h.tracks.header.1])
  obtain ⟨w, hs, hheld, hlsn⟩ := h.toHeld.reopen (h.tracks.decode_tail ht) opts
  have hw : w.lsn = s.wal.lsn := hlsn.trans (h.lsn hfs).symm
  have hw' : (s.reopened w).wal.lsn = s.wal.lsn := hw
  refine ⟨w, hs, ⟨hheld, fun _ => hlsn, ?_, ?_, ?_, h.batch_pos, ?_, h.commits_lt_pending,
    h.kept, h.increasing, ?_⟩, hw⟩
  · rw [hw']; exact h.pos
  · rw [hw']; exact h.commits_lt
  · rw [hw']; exact h.folded_lt
  · rw [hw']; exact h.batch_lt
  · rw [hw']; exact h.appended_lt

theorem Run.kept_step (s : Run) (op : Op) (h : ∃ hdr fs stale r, s.Kept hdr fs stale r)
    (hop : op.KeepsLog s) :
    ∃ s', s.step op = .ok s' ∧ ∃ hdr fs stale r, s'.Kept hdr fs stale r := by
  obtain ⟨hdr, fs, stale, r, h⟩ := h
  cases op with
  | logBatch version encoded => exact ⟨_, rfl, hdr, h.logBatch version hop.1 hop.2⟩
  | commit version => exact ⟨_, rfl, hdr, h.commit version hop⟩
  | checkpointed f =>
    obtain ⟨hdr', stale', hk⟩ := h.checkpointed hop.1 hop.2
    exact ⟨_, rfl, hdr', [], stale', {}, hk⟩
  | reopen opts =>
    obtain ⟨w, hs, hk, _⟩ := h.reopen hop.1 hop.2 opts
    exact ⟨_, hs, hdr, fs, stale, r, hk⟩

/-- All frames, checkpoint frames included, have had increasing LSNs so far. -/
def Run.Increasing (s : Run) : Prop :=
  (s.assigned.map Prod.snd).Pairwise (· < ·) ∧
    (s.folded = [] → ∀ l ∈ s.assigned.map Prod.snd, l < s.wal.lsn)

theorem Run.increasing_step (s : Run) (op : Op)
    (h : (∃ hdr fs stale r, s.Kept hdr fs stale r) ∧ s.Increasing)
    (hop : op.KeepsLog s ∧ op.BeforeFold s) :
    ∃ s', s.step op = .ok s' ∧ (∃ hdr fs stale r, s'.Kept hdr fs stale r) ∧ s'.Increasing := by
  obtain ⟨hk, hinc, hlt⟩ := h
  obtain ⟨s', hs, hk'⟩ := Run.kept_step s op hk hop.1
  refine ⟨s', hs, hk', ?_⟩
  cases op with
  | logBatch version encoded =>
    cases hs
    simp only [Run.Increasing, Run.logBatch, map_append, map_singleton]
    exact ⟨pairwise_lt_concat hinc (hlt hop.2),
      fun hf => forall_lt_concat (hlt hf) (lt_succ_of_noWrap hop.1.2)⟩
  | commit version =>
    cases hs
    simp only [Run.Increasing, Run.commit, map_append, map_singleton, WAL.lsn_commit]
    exact ⟨pairwise_lt_concat hinc (hlt hop.2),
      fun hf => forall_lt_concat (hlt hf) (lt_succ_of_noWrap hop.1)⟩
  | checkpointed f =>
    cases hs
    simp only [Run.Increasing, Run.checkpointed, map_append, map_singleton]
    exact ⟨pairwise_lt_concat hinc (hlt hop.2), fun hf => absurd hf (by simp)⟩
  | reopen opts =>
    obtain ⟨hdr, fs, stale, r, hk⟩ := hk
    obtain ⟨w, hw, _, hlsn⟩ := hk.reopen hop.1.1 hop.1.2 opts
    cases hw.symm.trans hs
    refine ⟨hinc, fun hf => ?_⟩
    change ∀ l ∈ s.assigned.map Prod.snd, l < w.lsn
    rw [hlsn]
    exact hlt hf

end Keep

/-- Recovery keeps what was committed past the folded LSNs in every run whose checkpoints fold the
whole log and whose reopens find the current generation. -/
theorem recover_checkpointed (opts : Options) (ops : List Op)
    (h : Along Run.step (fun s op => op.KeepsLog s) (Run.fresh opts) ops) :
    ∃ s, exec Run.step (Run.fresh opts) ops = .ok s ∧
      (s.wal.TailUnreadable → ∃ res, recover s.wal.file.live = .ok res ∧
        ∀ b ∈ s.covered, (∀ f ∈ s.folded, f < b.lsn) → b ∈ res.committedAfter s.boundary) ∧
      s.appended.Pairwise (· < ·) ∧
      (Along Run.step (fun s op => op.BeforeFold s) (Run.fresh opts) ops →
        (s.assigned.map Prod.snd).Pairwise (· < ·)) := by
  have hfresh : ∃ hdr fs stale r, (Run.fresh opts).Kept hdr fs stale r :=
    ⟨_, _, _, _, Run.kept_fresh opts⟩
  obtain ⟨s, hs, hdr, fs, stale, r, hk⟩ := Along.exec Run.kept_step hfresh h
  refine ⟨s, hs, fun ht => ?_, hk.increasing, fun hb => ?_⟩
  · obtain ⟨res, hres, hbs⟩ := hk.toOnLog.recover (hk.tracks.decode_tail ht)
    refine ⟨res, hres, fun b hb hfold => ?_⟩
    have hpos := hk.batch_pos b (mem_append_left _ hb)
    have hlt : s.boundary < b.lsn := foldl_max_lt.mpr ⟨hpos, hfold⟩
    rw [RecoverResult.committedAfter, mem_filter, hbs]
    exact ⟨hk.kept b hb hfold, by simpa using hlt⟩
  · have hinc : (Run.fresh opts).Increasing := ⟨by simp [Run.fresh], by simp [Run.fresh]⟩
    obtain ⟨s', hs', _, hinc'⟩ := Along.exec Run.increasing_step ⟨hfresh, hinc⟩ (h.and hb)
    cases hs.symm.trans hs'
    exact hinc'.1

theorem recover_checkpointed_two_generations :
    ∃ s, exec Run.step (Run.fresh {})
        [.logBatch 1 [7], .commit 1, .checkpointed 2, .logBatch 2 [8], .commit 2, .reopen {}] =
          .ok s ∧
      (s.wal.TailUnreadable → ∃ res, recover s.wal.file.live = .ok res ∧
        ∀ b ∈ s.covered, (∀ f ∈ s.folded, f < b.lsn) → b ∈ res.committedAfter s.boundary) ∧
      s.appended.Pairwise (· < ·) ∧
      (Along Run.step (fun s op => op.BeforeFold s) (Run.fresh {})
          [.logBatch 1 [7], .commit 1, .checkpointed 2, .logBatch 2 [8], .commit 2, .reopen {}] →
        (s.assigned.map Prod.snd).Pairwise (· < ·)) :=
  recover_checkpointed {} _ (by decide +kernel)

/-- Folding the first of two commits drops the second, and its LSN is handed out again. -/
theorem checkpointed_drops_later_commit :
    ∃ s, exec Run.step (Run.fresh {}) [.logBatch 1 [7], .commit 1, .logBatch 2 [8], .commit 2,
        .checkpointed 2, .logBatch 3 [9]] = .ok s ∧
      ∃ res, recover s.wal.file.live = .ok res ∧ s.commits = [2, 4] ∧ s.folded = [2] ∧
        ⟨2, 3, [8]⟩ ∈ s.covered ∧ res.committedAfter s.boundary = [] ∧
        s.appended = [1, 2, 3, 4, 3] := by
  decide +kernel

end VecDb.Wal
