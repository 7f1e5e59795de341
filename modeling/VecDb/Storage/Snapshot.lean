import Mathlib.Data.List.TakeWhile
import VecDb.Storage.Abort

/-! # Read snapshots

A slot does not record the transaction that wrote it, so every slot counts as the snapshot's own:
what a snapshot shows is what is in the collection at the time of the read.
-/

namespace VecDb.Storage

open Mvcc Draft Collection Engine

theorem reads_snapshot (e : Engine) (c : Collection) :
    c.scanVectors (some e.snapshot) = c.scanVectors none ∧
      (∀ p proj, c.fetch p proj (some e.snapshot) = c.fetch p proj none) ∧
      ∀ pred, c.metadataFilter pred (some e.snapshot) = c.metadataFilter pred none :=
  ⟨rfl, fun _ _ => rfl, fun _ => rfl⟩

/-- The call changes no row: it is rejected, or about a point that is not there, or it writes
the values that are there already. -/
def Write.Idle (c : Collection) : Write → Prop
  | .insert _ id vec row => ¬ Draft.Accepts c id vec row
  | .delete id => c.idmap.fwd id = none
  | .upsert _ id vec row => c.idmap.fwd id = none ∧ ¬ Draft.Accepts c id vec row
  | .updateMeta id row => ∀ loc, c.idmap.fwd id = some loc →
      ∀ e ∈ Draft.fitting c.metadata row.entries, c.metadata.vals e.1 loc.segSeq loc.slotPos = e.2

namespace Collection

variable {a b c : Collection} {p : UInt32} {pred : Predicate} {snap : Option Snapshot}

/-- Only leftovers have been added, and positions stay within 32 bits if the directory grew. -/
structure Calm (a b : Collection) : Prop where
  near : a.Near b
  wf : a.WF
  base : b.WF
  grid : a.segs.length = b.segs.length ∨ a.segs.length * a.capacity.toNat < 2 ^ 32

theorem Calm.refl (h : c.WF) : c.Calm c := ⟨.refl c, h, h, .inl rfl⟩

theorem Calm.next (h : a.Calm b) (hn : c.Near a) (hc : c.WF)
    (hgrid : c.segs.length = a.segs.length ∨ c.segs.length * c.capacity.toNat < 2 ^ 32) :
    c.Calm b where
  near := hn.trans h.near
  wf := hc
  base := h.base
  grid := by
    rcases hgrid with heq | hlt
    · rw [heq, hn.capacity]
      exact h.grid
    · exact .inr hlt

theorem Calm.metadataFilter (h : a.Calm b) (hz : a.Unwrapped) :
    (a.metadataFilter pred snap).contains p = (b.metadataFilter pred snap).contains p := by
  rw [Bool.eq_iff_iff, metadataFilter_contains, metadataFilter_contains,
    h.near.filterHits h.wf.metadata h.base.metadata hz]
  refine and_congr_left fun hp => ?_
  rcases h.grid with heq | hlt
  · rw [gridSize, gridSize, heq, h.near.capacity]
  · have hle := Nat.mul_le_mul_right a.capacity.toNat h.near.segs.length_le
    have hlt' : b.segs.length * b.capacity.toNat < 2 ^ 32 := by
      rw [← h.near.capacity]
      omega
    have hb := filterHits_lt h.base hlt' hp
    rw [UInt32.lt_iff_toNat_lt, UInt32.lt_iff_toNat_lt, gridSize_toNat hlt, gridSize_toNat hlt']
    rw [h.near.capacity] at hle ⊢
    omega

theorem sealOpen_length (c : Collection) : c.sealOpen.segs.length = c.segs.length := by
  unfold sealOpen
  split
  · exact List.length_modify ..
  · rfl

theorem ensureOpen_length (c : Collection) : c.ensureOpen.segs.length ≤ c.segs.length + 1 := by
  unfold ensureOpen
  split
  · split
    · simp [openSegment, modifySeg]
    · exact Nat.le_succ _
  · simp [openSegment]

theorem appendSlot_length (c : Collection) (order : RangeOrder) (di : ℕ) (id : PointID) (vec : Vec)
    (row : MetaRow) : (c.appendSlot order di id vec row).1.segs.length = c.segs.length := by
  unfold appendSlot
  dsimp only
  split <;> simp [modifySeg]

end Collection

namespace Draft

variable {m : MetadataStore} {seq slot : ℕ} {entries : List (ColID × Value)}

theorem appendPoint_length (d : Draft) (order : RangeOrder) (id : PointID) (vec : Vec)
    (row : MetaRow) :
    (d.appendPoint order id vec row).1.coll.segs.length ≤ d.coll.segs.length + 1 := by
  have hopen := d.coll.ensureOpen_length
  have hslot := d.coll.ensureOpen.appendSlot_length order (d.coll.ensureOpen.openIdx.getD 0) id vec
    row
  unfold appendPoint
  split
  · exact Nat.le_succ _
  · split
    · exact Nat.le_succ _
    · dsimp only
      split
      · rename_i c e heq
        rw [heq] at hslot
        exact hslot.trans_le hopen
      · rename_i c heq
        rw [heq] at hslot
        split
        · simpa [Collection.modifySeg] using hslot.trans_le hopen
        · exact hslot.trans_le hopen

theorem putAll_columns : (putAll m seq slot entries).columns = m.columns := by
  induction entries generalizing m with
  | nil => rfl
  | cons e entries ih => exact ih

theorem putAll_same {s p : ℕ} (h : s = seq ∧ p = slot → ∀ e ∈ entries, m.vals e.1 s p = e.2)
    (col : ColID) : (putAll m seq slot entries).vals col s p = m.vals col s p := by
  induction entries generalizing m with
  | nil => rfl
  | cons e entries ih =>
    have hput : ∀ col, (m.put e.1 seq slot e.2).vals col s p = m.vals col s p := by
      intro col
      refine ite_eq_right_iff.mpr ?_
      rintro ⟨rfl, hloc⟩
      exact (h hloc e List.mem_cons_self).symm
    refine (ih fun hloc e' he => ?_).trans (hput col)
    rw [hput]
    exact h hloc e' (List.mem_cons_of_mem _ he)

theorem fits_of_fitting {e : ColID × Value} (he : e ∈ fitting m entries) : m.Fits e.1 e.2 := by
  have := List.mem_takeWhile_imp he
  exact of_decide_eq_true this

theorem putAll_zone (h : ∀ e ∈ entries, m.Fits e.1 e.2) (col : ColID) (s b : ℕ) :
    (m.zone col s b).Widened ((putAll m seq slot entries).zone col s b) := by
  induction entries generalizing m with
  | nil => exact .refl _
  | cons e entries ih =>
    rw [List.forall_mem_cons] at h
    exact ((MetadataStore.writes_put h.1).zone col s b).trans (ih h.2)

end Draft

namespace Write

variable {c : Collection} {w : Write}

theorem run_idle (hc : c.WF) (hi : w.Idle c) :
    (w.run { coll := c }).1.coll.Near c ∧ (w.run { coll := c }).1.stamp = [] ∧
      (w.run { coll := c }).1.coll.segs.length ≤ c.segs.length + 1 := by
  cases w with
  | insert order id vec row =>
    obtain ⟨d', e, heq, hsame, -⟩ := @Draft.appendPoint_rejected { coll := c } order id vec row hc hi
    have hlen := appendPoint_length { coll := c } order id vec row
    rw [run]
    rw [heq] at hlen ⊢
    exact ⟨hsame.near, hsame.stamp, hlen⟩
  | delete id =>
    rw [run, @Draft.delete_missing { coll := c } id hi]
    exact ⟨.refl c, rfl, Nat.le_succ _⟩
  | upsert order id vec row =>
    obtain ⟨d', e, heq, hsame, -⟩ :=
      @Draft.appendPoint_rejected { coll := c } order id vec row hc hi.2
    have hlen := appendPoint_length { coll := c } order id vec row
    rcases @run_upsert { coll := c } id hc order vec row with ⟨-, hrun⟩ | ⟨loc, di, hl, -⟩
    · rw [hrun, run]
      rw [heq] at hlen ⊢
      exact ⟨hsame.near, hsame.stamp, hlen⟩
    · cases hi.1.symm.trans hl
  | updateMeta id row =>
    rcases @run_updateMeta { coll := c } id hc row with
      ⟨-, heq⟩ | ⟨loc, log, hl, -, -, -, hstamp, -, hcoll⟩
    · rw [heq]
      exact ⟨.refl c, rfl, Nat.le_succ _⟩
    · rw [hcoll]
      refine ⟨⟨rfl, rfl, rfl, putAll_columns, .refl .refl _, fun _ _ hd => hd, ?_, ?_⟩,
        hstamp, Nat.le_succ _⟩
      · intro di t ht col slot hslot
        refine putAll_same ?_ col
        rintro ⟨hseq, rfl⟩
        rw [hseq]
        exact hi loc hl
      · exact putAll_zone fun e he => fits_of_fitting he

end Write

namespace Engine

def Calm (a b : Engine) : Prop := ∀ k, Option.Rel Collection.Calm (a.colls k) (b.colls k)

variable {a b : Engine} {k : UInt64}

theorem Calm.coll (h : a.Calm b) {c : Collection} (hc : a.colls k = some c) :
    ∃ c₀, b.colls k = some c₀ ∧ c.Calm c₀ := by
  have hk := h k
  rcases hb : b.colls k with _ | c₀ <;> rw [hc, hb] at hk <;> cases hk
  exact ⟨c₀, rfl, ‹_›⟩

theorem Calm.change (h : a.Calm b) {a' : Engine} (f : UInt64 → Collection → Collection)
    (ha : ∀ k, a'.colls k = (a.colls k).map (f k))
    (hf : ∀ k c c₀, a.colls k = some c → b.colls k = some c₀ → c.Calm c₀ → (f k c).Calm c₀) :
    a'.Calm b := by
  intro k
  rw [ha]
  rcases rel_cases (h k) with ⟨hc, hb⟩ | ⟨c, c₀, hc, hb, hcalm⟩ <;> rw [hc, hb]
  · exact .none
  · exact .some (hf k c c₀ hc hb hcalm)

end Engine

namespace Sys

/-- The steps of write transactions whose calls change no row. -/
def Quiet (s : Sys) : Event → Prop
  | .call k w => ∀ c, s.engine.colls k = some c →
      w.Idle c ∧ (c.segs.length + 1) * c.capacity.toNat < 2 ^ 32
  | .begin | .drawSeq | .publish | .abort | .sealSegment _ => True
  | .create _ | .compact _ => False

/-- The engine is calm, and so it was when the open transaction began. -/
structure Resting (e₀ : Engine) (s : Sys) : Prop where
  calm : s.engine.Calm e₀
  txn : ∀ t, s.writer = some t → (∀ k, t.slots k = []) ∧
    ∃ e, e.Calm e₀ ∧ Engine.Tracks e s.engine t

variable {e₀ : Engine} {s s' : Sys} {t : Txn}

section

variable (h : Resting e₀ s)
include h

theorem Resting.begin :
    Resting e₀ { engine := s.engine.begin.1, writer := some s.engine.begin.2 } where
  calm := h.calm
  txn t ht := by
    cases ht
    refine ⟨fun _ => rfl, s.engine, h.calm, tracks_begin fun k c hc => ?_⟩
    obtain ⟨c₀, -, hk⟩ := h.calm.coll hc
    exact hk.wf

theorem Resting.call (ht : s.writer = some t) {k : UInt64} {w : Write} (hq : s.Quiet (.call k w)) :
    Resting e₀ { s with
      engine := (s.engine.call t k w).1
      writer := some (s.engine.call t k w).2.1 } := by
  obtain ⟨hslots, e, hcalm, htracks⟩ := h.txn t ht
  rcases hc : s.engine.colls k with _ | c
  · rw [call_none hc]
    refine ⟨h.calm, fun t' ht' => ?_⟩
    cases ht'
    exact ⟨hslots, e, hcalm, htracks⟩
  · obtain ⟨hidle, hgrid⟩ := hq c hc
    obtain ⟨c₀, -, hc₀⟩ := h.calm.coll hc
    obtain ⟨hnear, hstamp, hlen⟩ := Write.run_idle hc₀.wf hidle
    obtain ⟨log, -, heffect⟩ := @Write.run_effect { coll := c } hc₀.wf w
    obtain ⟨hcolls, -, hslots', -, -⟩ := @call_some s.engine t k c w hc
    constructor
    · refine h.calm.change
        (fun k' c' => if k' = k then (w.run { coll := c }).1.coll else c') (fun k' => ?_) ?_
      · rw [hcolls, Function.update_apply]
        split
        · rename_i hk
          rw [hk, hc, Option.map_some]
        · exact Option.map_id'.symm
      · intro k' c' d hc' _ hd
        split
        · rename_i hk
          subst hk
          cases hc.symm.trans hc'
          refine hd.next hnear heffect.wf (.inr ?_)
          rw [hnear.capacity]
          exact (Nat.mul_le_mul_right _ hlen).trans_lt hgrid
        · exact hd
    · intro t' ht'
      cases ht'
      refine ⟨fun k' => ?_, e, hcalm, htracks.call k w⟩
      rw [hslots', hslots, hstamp, ite_self]
      rfl

theorem Resting.sealSegment (k : UInt64) :
    Resting e₀ { s with engine := s.engine.modifyColl k Collection.sealOpen } := by
  have hcolls : ∀ k', (s.engine.modifyColl k Collection.sealOpen).colls k' =
      (s.engine.colls k').map fun c => if k' = k then c.sealOpen else c := by
    intro k'
    rw [modifyColl]
    dsimp only
    rw [Function.update_apply]
    split
    · rename_i hk
      rw [hk]
    · exact Option.map_id'.symm
  constructor
  · refine h.calm.change (fun k' c => if k' = k then c.sealOpen else c) hcolls ?_
    intro k' c c₀ _ _ hc
    split
    · refine hc.next (near_sealOpen hc.wf.toFramed) hc.wf.sealOpen (.inl ?_)
      exact sealOpen_length c
    · exact hc
  · intro t ht
    obtain ⟨hslots, e, hcalm, htracks⟩ := h.txn t ht
    refine ⟨hslots, e, hcalm, fun k' => ?_⟩
    rw [hcolls]
    rcases rel_cases (htracks k') with ⟨hb, hc⟩ | ⟨c₀, c, hb, hc, ho⟩ <;> rw [hb, hc]
    · exact .none
    · refine .some ?_
      split
      · exact ho.near (near_sealOpen ho.wf.toFramed) ho.wf.sealOpen
          (sealOpen_idmap c)
      · exact ho

theorem Resting.publish (ht : s.writer = some t) (seq : ℕ) :
    Resting e₀ { engine := s.engine.publish t seq } := by
  refine ⟨h.calm.change (fun _ c => c) (fun k => ?_) fun _ _ _ _ _ hc => hc, fun _ ht' => nomatch ht'⟩
  rw [publish_colls, (h.txn t ht).1 k]
  rfl

theorem Resting.abort (ht : s.writer = some t) : Resting e₀ { engine := s.engine.abort t } := by
  obtain ⟨-, e, hcalm, htracks⟩ := h.txn t ht
  refine ⟨h.calm.change _ (s.engine.abort_colls t) ?_, fun _ ht' => nomatch ht'⟩
  intro k c c₀ hc hc₀ hk
  obtain ⟨b, hb, ho⟩ := htracks.base hc
  obtain ⟨b₀, hb₀, hbase⟩ := hcalm.coll hb
  cases hc₀.symm.trans hb₀
  refine ⟨ho.reverts.near.trans hbase.near, ho.undoAll_wf, hk.base, ?_⟩
  rw [(c.undoAll_frame _).1, (c.undoAll_frame _).2]
  exact hk.grid

theorem Resting.step {ev : Event} (hq : s.Quiet ev) (hs : s.step ev = .ok s') : Resting e₀ s' := by
  cases takes_of_step hs with
  | created | refused | compact => exact hq.elim
  | begin => exact h.begin
  | call ht => exact h.call ht hq
  | drawSeq => exact ⟨h.calm, h.txn⟩
  | publish ht => exact h.publish ht _
  | abort ht => exact h.abort ht
  | sealSegment => exact h.sealSegment _

end

/-- In a run of write transactions whose calls change no row, every snapshot shows what was there
before the run; filters do so as long as no counter of a zone map has wrapped. -/
theorem snapshot_stable {s₀ : Sys} (hs : s₀.Reachable) (hw : s₀.writer = none)
    {events : List Event} (hq : Along Sys.step Quiet s₀ events) :
    ∀ s ∈ visited Sys.step s₀ events, ∀ s' ∈ visited Sys.step s₀ events, ∀ k,
      s.engine.scanVectors k (some s'.engine.snapshot) =
        s₀.engine.scanVectors k (some s₀.engine.snapshot) ∧
      (∀ p proj, s.engine.fetch k p proj (some s'.engine.snapshot) =
        s₀.engine.fetch k p proj (some s₀.engine.snapshot)) ∧
      (s.engine.Unwrapped → ∀ pred p,
        (s.engine.metadataFilter k pred (some s'.engine.snapshot)).map (fun bm => bm.contains p) =
          (s₀.engine.metadataFilter k pred (some s₀.engine.snapshot)).map
            fun bm => bm.contains p) := by
  intro s hmem s' _ k
  have hstart : Resting s₀.engine s₀ := by
    refine ⟨fun k => ?_, fun t ht => nomatch hw.symm.trans ht⟩
    rcases hc : s₀.engine.colls k with _ | c
    · exact .none
    · exact .some (.refl (hs.inv.wf hc))
  have hk := (hq.visited (fun _ _ _ hi hq hs => Resting.step hi hq hs) hstart s hmem).calm k
  simp only [Engine.scanVectors, Engine.fetch, Engine.metadataFilter]
  rcases rel_cases hk with ⟨hc, hb⟩ | ⟨c, c₀, hc, hb, hcalm⟩ <;> rw [hc, hb]
  · exact ⟨rfl, fun _ _ => rfl, fun _ _ _ => rfl⟩
  · obtain ⟨hscan, hfetch, hfilter⟩ := reads_snapshot s'.engine c
    obtain ⟨hscan₀, hfetch₀, hfilter₀⟩ := reads_snapshot s₀.engine c₀
    simp only [hscan, hscan₀, hfetch, hfetch₀, hfilter, hfilter₀]
    refine ⟨?_, ?_, ?_⟩
    · rw [hcalm.near.scanVectors]
    · exact fun p proj => hcalm.near.fetch p proj none
    · exact fun hz pred p => congrArg Except.ok (hcalm.metadataFilter (hz k c hc))

section Evaluate

instance (c : Collection) (id : PointID) (vec : Vec) (row : MetaRow) :
    Decidable (Draft.Accepts c id vec row) :=
  decidable_of_iff (UInt32.ofNat vec.length = c.dims ∧ c.idmap.fwd id = none ∧
      ∀ e ∈ row.entries, c.metadata.Fits e.1 e.2)
    ⟨fun ⟨h1, h2, h3⟩ => ⟨h1, h2, h3⟩, fun ⟨h1, h2, h3⟩ => ⟨h1, h2, h3⟩⟩

instance (c : Collection) : ∀ w : Write, Decidable (w.Idle c)
  | .insert _ _ _ _ => inferInstanceAs (Decidable (¬ _))
  | .delete _ => inferInstanceAs (Decidable (_ = _))
  | .upsert _ _ _ _ => inferInstanceAs (Decidable (_ ∧ ¬ _))
  | .updateMeta id row => inferInstanceAs (Decidable (∀ loc, c.idmap.fwd id = some loc →
      ∀ e ∈ Draft.fitting c.metadata row.entries,
        c.metadata.vals e.1 loc.segSeq loc.slotPos = e.2))

instance (s : Sys) : ∀ ev, Decidable (s.Quiet ev)
  | .call k w => inferInstanceAs (Decidable (∀ c, s.engine.colls k = some c →
      w.Idle c ∧ (c.segs.length + 1) * c.capacity.toNat < 2 ^ 32))
  | .begin | .drawSeq | .publish | .abort | .sealSegment _ => .isTrue trivial
  | .create _ | .compact _ => .isFalse fun h => h

end Evaluate

theorem snapshot_stable_failed :
    let run := [.begin, .call 1 (.insert .id 6 [7] ⟨[(1, .int 9), (2, .int 1)], by decide⟩), .drawSeq,
      .publish, .begin, .call 1 (.updateMeta 5 ⟨[(1, .int 3)], by decide⟩), .abort]
    let snap := some (after onePoint).engine.snapshot
    (∀ s ∈ visited Sys.step (after onePoint) run, s.engine.scanVectors 1 snap = .ok [(0, [0])]) ∧
      ((after (onePoint ++ run.take 2)).engine.metadataFilter 1 (.compare 1 .lt (.int 9)) snap).map
        (fun bm => bm.contains 0) = .ok true := by
  intro run snap
  have hr : (after onePoint).Reachable := reachable_after (by decide)
  have hquiet : Along Sys.step Quiet (after onePoint) run := by decide
  have hstable := snapshot_stable hr rfl hquiet
  refine ⟨fun s hs => (hstable s hs _ List.mem_cons_self 1).1, ?_⟩
  refine ((hstable _ (List.mem_of_getElem? (i := 2) rfl) _ List.mem_cons_self 1).2.2 ?_ _ 0).trans rfl
  intro k c hc
  by_cases hk : k = 1
  · subst hk
    cases hc
    intro col seq block
    change ZoneBlock.written (if _ then ZoneBlock.fold (if _ then ZoneBlock.fold {} _ else {}) _
      else if _ then ZoneBlock.fold {} _ else {}) < _
    split <;> split <;> decide
  · cases ((Function.update_of_ne hk _ _).trans (onePoint_colls hk)).symm.trans hc

/-- A snapshot shows a point that was inserted after it was taken, before any commit. -/
theorem snapshot_shows_uncommitted :
    (after onePoint).Reachable ∧
      let snap := some (after onePoint).engine.snapshot
      let s := after (onePoint ++ [.begin, .call 1 (.insert .id 6 [7] ⟨[], by decide⟩)])
      s.Reachable ∧ s.writer.isSome ∧
        (after onePoint).engine.scanVectors 1 snap = .ok [(0, [0])] ∧
        s.engine.scanVectors 1 snap = .ok [(0, [0]), (1, [7])] :=
  ⟨reachable_after (by decide), reachable_after (by decide), rfl, rfl, rfl⟩

end Sys

end VecDb.Storage
