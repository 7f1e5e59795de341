import VecDb.Wal.History

/-! # Recovery of a truncated log

Cutting the file of one session at any byte past the header leaves the batches
whose commit frame ends before the cut, provided that every payload fits the
length field of its frame.
-/

namespace VecDb.Wal

open Bytes Vfs List

def Op.isAppend : Op → Bool
  | .logBatch _ _ | .commit _ => true
  | _ => false

def CommittedBatch.Fits (b : CommittedBatch) : Prop := b.encoded.length < 2 ^ 32

/-- The batches whose commit frame ends within the first `n` bytes. -/
def Run.committedWithin (s : Run) (n : ℕ) : List CommittedBatch :=
  (s.committed.filter fun b => b.2 ≤ n).map Prod.fst

/-- Every cut past the header recovers to the batches committed before the cut. -/
def Run.RecoversCuts (s : Run) : Prop :=
  ∀ n, headerSize ≤ n → ∃ res, recover (s.wal.file.live.take n) = .ok res ∧
    res.batches = s.committedWithin n

section Limit

def Replay.Fits (r : Replay) : Prop := ∀ b ∈ r.batches ++ r.pending, b.Fits

theorem Replay.Fits.frame {r r' : Replay} {f : Frame} (h : r.Fits) (hf : f.Fits)
    (hr : r.frame f = .ok r') : r'.Fits := by
  unfold Replay.frame at hr
  split at hr
  · cases hr
    intro b hb
    simp only [mem_append, mem_singleton] at hb
    rcases hb with hb | hb | rfl
    · exact h b (mem_append_left _ hb)
    · exact h b (mem_append_right _ hb)
    · exact hf
  · cases hr
    intro b hb
    exact h b (by simpa using hb)
  · split at hr
    · cases hr
    · cases hr; exact h
  · cases hr; exact h
  · cases hr; exact h

theorem recover_fits {file : Bytes} {res : RecoverResult} (h : recover file = .ok res) :
    ∀ b ∈ res.batches, b.Fits := by
  by_cases hok : HeaderOk file
  · rw [recover_of_headerOk hok] at h
    rcases hr : Replay.run {} (chained file).1 with e | r
    · rw [hr] at h; cases h
    · rw [hr] at h
      cases h
      have hfits := ((codec (headerSalt file)).scan_sound (headerSum file)
        (file.drop headerSize)).1
      have hr : exec Replay.frame {} (chained file).1 = .ok r := hr
      have hinv : r.Fits :=
        exec_invariant (fun _ f _ hi hmem hs => hi.frame (hfits f hmem) hs) (by simp [Replay.Fits])
          hr
      exact fun b hb => hinv b (mem_append_left _ hb)
  · rw [recover_of_not_headerOk hok] at h
    cases h
    simp

end Limit

section Cut

variable {s : Run} {hdr : Bytes} {fs : List Frame} {r : Replay}

variable {f : Frame} {n : ℕ}

theorem recover_torn (hh : IsHeader hdr) (hf : ∀ g ∈ fs, g.Fits)
    (hfit : f.Fits) (hr : Replay.run {} fs = .ok r) (hle : (logBytes hdr fs).length ≤ n)
    (hlt : n < (logBytes hdr (fs ++ [f])).length) :
    ∃ res, recover ((logBytes hdr (fs ++ [f])).take n) = .ok res ∧ res.batches = r.batches := by
  rw [logBytes_concat] at hlt ⊢
  rw [length_append] at hlt
  rw [take_append, take_of_length_le hle]
  set k := n - (logBytes hdr fs).length with hk
  have hd : (codec (headerSalt hdr)).decode (logSum hdr fs)
      ((f.encode (headerSalt hdr) (logSum hdr fs)).take k) = none := by
    refine (codec (headerSalt hdr)).decode_torn hfit ?_ (take_append_drop k _).symm
    rw [ne_eq, drop_eq_nil_iff]
    change ¬ (f.encode (headerSalt hdr) (logSum hdr fs)).length ≤ k
    omega
  have hrec := recover_log hh hf hd
  rw [hr] at hrec
  exact ⟨_, hrec, rfl⟩

/-- A log of one session, read back from every cut. -/
structure Run.Cuts (s : Run) (hdr : Bytes) (fs : List Frame) (r : Replay) : Prop
    extends s.Logged hdr fs r where
  carried : s.carried = []
  promoted : s.promoted = []
  ends : ∀ b ∈ s.committed, b.2 ≤ s.wal.tailOff
  cuts : s.RecoversCuts

theorem Run.committedWithin_all (h : ∀ b ∈ s.committed, b.2 ≤ n) :
    s.committedWithin n = s.committed.map Prod.fst := by
  rw [Run.committedWithin, List.filter_eq_self.mpr (by simpa using h)]

theorem Run.cuts_fresh (opts : Options) :
    (fresh opts).Cuts (create .empty opts).headerBytes [] {} := by
  have hl := Run.logged_fresh opts
  refine ⟨hl, rfl, rfl, by simp [fresh], fun n hn => ?_⟩
  obtain ⟨res, hres, hb⟩ := hl.toOnLog.recover rfl
  have hlen : (fresh opts).wal.file.live.length ≤ n := by
    rw [hl.tracks.live, append_nil, logBytes_nil, hl.tracks.header.1]
    exact hn
  rw [take_of_length_le hlen]
  exact ⟨res, hres, hb⟩

theorem Run.Cuts.extend {s' : Run} {r' : Replay} (h : s.Cuts hdr fs r)
    (bs : List CommittedBatch) (hl : s'.Logged hdr (fs ++ [f]) r') (hc : s'.carried = [])
    (hp : s'.promoted = [])
    (hcom : s'.committed = s.committed ++ bs.map fun b => (b, s'.wal.tailOff)) :
    s'.Cuts hdr (fs ++ [f]) r' := by
  have htail : s'.wal.tailOff = (logBytes hdr (fs ++ [f])).length := hl.tracks.tailOff
  have hlen : (logBytes hdr fs).length < (logBytes hdr (fs ++ [f])).length := by
    rw [logBytes_concat, length_append]
    have := length_pos_iff.mpr
      ((codec (headerSalt hdr)).encode_ne_nil (logSum hdr fs) f)
    exact Nat.lt_add_of_pos_right this
  have hends : ∀ b ∈ s'.committed, b.2 ≤ s'.wal.tailOff := by
    intro b hb
    rw [hcom, mem_append, mem_map] at hb
    rcases hb with hb | ⟨c, _, rfl⟩
    · have := h.ends b hb
      rw [h.tracks.tailOff] at this
      omega
    · exact le_rfl
  have hfit : f.Fits := hl.fits f (by simp)
  -- commits of the new frame lie past every cut before its end
  have hwithin : ∀ n, n < s'.wal.tailOff → s'.committedWithin n = s.committedWithin n := by
    intro n hn
    have hnone : (bs.map fun b => (b, s'.wal.tailOff)).filter (fun b => b.2 ≤ n) = [] := by
      simp only [filter_eq_nil_iff, mem_map]
      rintro _ ⟨b, _, rfl⟩
      simpa using hn
    rw [Run.committedWithin, hcom, filter_append, hnone, append_nil]
    rfl
  refine ⟨hl, hc, hp, hends, fun n hn => ?_⟩
  have hlive : s'.wal.file.live = logBytes hdr (fs ++ [f]) := by
    rw [hl.tracks.live, append_nil]
  rw [hlive]
  rcases Nat.lt_or_ge n (logBytes hdr fs).length with hbefore | hge
  · obtain ⟨res, hres, hb⟩ := h.cuts n hn
    rw [h.tracks.live, append_nil] at hres
    rw [logBytes_concat, take_append_of_le_length hbefore.le, hwithin n (by omega)]
    exact ⟨res, hres, hb⟩
  rcases Nat.lt_or_ge n (logBytes hdr (fs ++ [f])).length with hin | hafter
  · obtain ⟨res, hres, hb⟩ := recover_torn h.tracks.header h.fits hfit h.replay hge hin
    have hall : s.committedWithin n = s.committed.map Prod.fst :=
      Run.committedWithin_all fun b hb => (h.ends b hb).trans (h.tracks.tailOff ▸ hge)
    refine ⟨res, hres, ?_⟩
    rw [hb, hwithin n (by omega), hall, h.batches h.promoted]
  · obtain ⟨res, hres, hb⟩ := hl.toOnLog.recover rfl
    rw [hlive] at hres
    have hall : s'.committedWithin n = s'.committed.map Prod.fst :=
      Run.committedWithin_all fun b hb => (hends b hb).trans (htail ▸ hafter)
    rw [take_of_length_le hafter, hall]
    exact ⟨res, hres, hb.trans (hl.batches hp)⟩

theorem Run.cuts_step (s : Run) (op : Op) (h : ∃ fs r, s.Cuts hdr fs r)
    (hop : op.isAppend ∧ op.Fits) : ∃ s', s.step op = .ok s' ∧ ∃ fs r, s'.Cuts hdr fs r := by
  obtain ⟨fs, r, h⟩ := h
  cases op with
  | logBatch version encoded =>
    exact ⟨_, rfl, _, _, h.extend [] (h.logBatch version hop.2) h.carried h.promoted
      (append_nil _).symm⟩
  | commit version =>
    have hp : (s.commit version).promoted = [] := by simp [Run.commit, h.promoted, h.carried]
    exact ⟨_, rfl, _, _, h.extend s.pending (h.commit version) rfl hp rfl⟩
  | checkpointed f | reopen opts => exact absurd hop.1 (by simp [Op.isAppend])

end Cut

section Logging

variable {s s' : Run} {ops : List Op}

def Run.logged (s : Run) : List CommittedBatch := s.committed.map Prod.fst ++ s.pending

theorem Run.logged_step {op : Op} (hop : op.isAppend) (h : s.step op = .ok s') :
    s'.logged = s.logged ∨ ∃ version encoded, op = .logBatch version encoded ∧
      s'.logged = s.logged ++ [⟨version, s.wal.lsn, encoded⟩] := by
  cases op with
  | logBatch version encoded =>
    cases h
    exact .inr ⟨version, encoded, rfl, by simp [Run.logged, Run.logBatch]⟩
  | commit version =>
    cases h
    exact .inl (by simp [Run.logged, Run.commit, Function.comp_def])
  | checkpointed f | reopen opts => cases hop

section

variable (hops : ∀ op ∈ ops, op.isAppend)
include hops

section

variable (h : exec Run.step s ops = .ok s')
include h

theorem Run.logged_subset : s.logged ⊆ s'.logged := by
  refine exec_invariant (I := fun t => s.logged ⊆ t.logged) ?_ (List.Subset.refl _) h
  intro t op t' ht hmem hstep
  rcases Run.logged_step (hops op hmem) hstep with heq | ⟨version, encoded, _, heq⟩
  · rwa [heq]
  · rw [heq]
    exact subset_append_of_subset_left _ ht

theorem Run.fits_of_logged (hfit : ∀ b ∈ s'.logged, b.Fits) : ∀ op ∈ ops, op.Fits := by
  induction ops generalizing s with
  | nil => simp
  | cons op ops ih =>
    rcases ht : s.step op with e | t
    · rw [exec, foldlM_cons, ht] at h; cases h
    · rw [exec_cons ht] at h
      have hops' : ∀ op ∈ ops, op.isAppend := fun o ho => hops o (mem_cons_of_mem _ ho)
      have hsub := Run.logged_subset hops' h
      intro o ho
      rcases mem_cons.mp ho with rfl | ho
      · rcases o with ⟨version, encoded⟩ | _ | _ | _
        · cases ht
          exact hfit ⟨version, s.wal.lsn, encoded⟩ (hsub (by simp [Run.logged, Run.logBatch]))
        all_goals trivial
      · exact ih hops' h o ho

theorem Run.along_fits (hcom : ∀ b ∈ s'.committed, b.1.Fits) (hpend : ∀ b ∈ s'.pending, b.Fits) :
    Along Run.step (fun _ op => op.isAppend ∧ op.Fits) s ops := by
  have hfit : ∀ b ∈ s'.logged, b.Fits := by
    intro b hb
    rcases mem_append.mp hb with hb | hb
    · obtain ⟨c, hc, rfl⟩ := mem_map.mp hb
      exact hcom c hc
    · exact hpend b hb
  exact Along.of_forall fun op hop _ => ⟨hops op hop, Run.fits_of_logged hops h hfit op hop⟩

end

theorem Run.exec_append (s : Run) : ∃ s', exec Run.step s ops = .ok s' := by
  have hp : Along Run.step (fun _ op => op.isAppend) s ops :=
    Along.of_forall fun op hop _ => hops op hop
  have hstep : ∀ (t : Run) (op : Op), True → op.isAppend → ∃ t', t.step op = .ok t' ∧ True := by
    rintro t (_ | _ | _ | _) _ hop
    · exact ⟨_, rfl, trivial⟩
    · exact ⟨_, rfl, trivial⟩
    all_goals cases hop
  obtain ⟨s', hs, _⟩ := Along.exec hstep trivial hp
  exact ⟨s', hs⟩

end

end Logging

theorem Run.RecoversCuts.fits {s : Run} (h : s.RecoversCuts) : ∀ b ∈ s.committed, b.1.Fits := by
  intro b hb
  obtain ⟨res, hres, hbs⟩ := h (max headerSize b.2) (le_max_left ..)
  refine recover_fits hres b.1 ?_
  rw [hbs, Run.committedWithin]
  exact mem_map_of_mem (mem_filter.mpr ⟨hb, by simp⟩)

/-- Every cut of a session's log recovers the batches committed before it exactly
when the committed payloads fit their frames. -/
theorem recover_cuts_iff (opts : Options) (ops : List Op) (hops : ∀ op ∈ ops, op.isAppend) :
    ∃ s, exec Run.step (Run.fresh opts) ops = .ok s ∧
      ((∀ b ∈ s.pending, b.Fits) → (s.RecoversCuts ↔ ∀ b ∈ s.committed, b.1.Fits)) := by
  obtain ⟨s, hs⟩ := Run.exec_append hops (Run.fresh opts)
  refine ⟨s, hs, fun hpend => ⟨Run.RecoversCuts.fits, fun hcom => ?_⟩⟩
  obtain ⟨s', hs', fs, r, hcuts⟩ := Along.exec Run.cuts_step ⟨[], {}, Run.cuts_fresh opts⟩
    (Run.along_fits hops hs hcom hpend)
  cases hs.symm.trans hs'
  exact hcuts.cuts

theorem recover_cuts_iff_one_commit :
    ∃ s, exec Run.step (Run.fresh {}) [.logBatch 1 [7], .commit 2, .logBatch 3 [8]] = .ok s ∧
      ((∀ b ∈ s.pending, b.Fits) → (s.RecoversCuts ↔ ∀ b ∈ s.committed, b.1.Fits)) :=
  recover_cuts_iff {} _ (by simp [Op.isAppend])

theorem oversized_not_recoversCuts {encoded : Bytes} (h : 2 ^ 32 ≤ encoded.length) :
    ∃ s, exec Run.step (Run.fresh {}) [.logBatch 1 encoded, .commit 2] = .ok s ∧
      s.pending = [] ∧ s.committed.map Prod.fst = [⟨1, 1, encoded⟩] ∧ ¬ s.RecoversCuts := by
  refine ⟨_, rfl, rfl, rfl, fun hcuts => ?_⟩
  have hmem := hcuts.fits _ mem_cons_self
  exact absurd hmem (by simpa [CommittedBatch.Fits] using h)

theorem recover_loses_four_gib :
    ∃ s, exec Run.step (Run.fresh {})
        [.logBatch 1 (List.replicate (2 ^ 32) 0), .commit 2] = .ok s ∧
      s.pending = [] ∧ s.committed.map Prod.fst = [⟨1, 1, List.replicate (2 ^ 32) 0⟩] ∧
      ¬ s.RecoversCuts :=
  oversized_not_recoversCuts (by rw [length_replicate])

end VecDb.Wal
