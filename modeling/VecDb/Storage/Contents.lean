import VecDb.Storage.Filter
import VecDb.Storage.Table

/-! # Reading the table

In a collection whose live slots are all owned, reading by position gives the entries of
the table, each under its point, and a scan goes through them once.
-/

namespace VecDb.Storage

open List

theorem Entry.lookup_project (e : Entry) (cols : List ColID) (col : ColID) :
    (e.project cols).lookup col =
      if col ∈ cols ∧ (e.cells col).isNull = false then some (e.cells col) else none := by
  induction cols with
  | nil => simp [project]
  | cons c cols ih =>
    have hcons : e.project (c :: cols) =
        (if (e.cells c).isNull then e.project cols else (c, e.cells c) :: e.project cols) := by
      unfold project
      rw [filterMap_cons]
      by_cases hn : (e.cells c).isNull = true <;> simp [hn]
    by_cases hcol : col = c
    · subst hcol
      by_cases hn : (e.cells col).isNull = true <;> simp [hcons, hn, ih]
    · have hbeq : (col == c) = false := beq_eq_false_iff_ne.mpr hcol
      by_cases hn : (e.cells c).isNull = true <;> simp [hcons, hn, ih, hcol, lookup_cons, hbeq]

section Codec

open Bytes

variable {dims : ℕ} {vec : Vec}

theorem fp32Codec_decode_length (src : Bytes) : ((fp32Codec dims).decode src).length = dims := by
  simp [fp32Codec]

theorem fp32Codec_decode_encode (h : vec.length = dims) :
    (fp32Codec dims).decode ((fp32Codec dims).encode vec) = vec := by
  refine ext_getElem (by rw [fp32Codec_decode_length, h]) fun i hi hi' => ?_
  simp only [fp32Codec, getElem_map, getElem_range]
  have hslice : slice ((vec.map le32).flatten ++ []) (4 * i) 4 = le32 vec[i] := by
    refine slice_flatten i (by simp [hi']) ?_ (length_le32 _)
    rw [← map_take, map_map]
    simp [Function.comp_def, Nat.min_eq_left hi'.le, Nat.mul_comm]
  rw [← h, take_length, List.flatMap, ← append_nil (List.flatten _), hslice, getLE_le32]

end Codec

theorem Table.upsert_accepted {T : Table} {id : PointID} {vec : Vec} {row : MetaRow}
    (hdim : UInt32.ofNat vec.length = T.shape.dims)
    (hrow : ∀ e ∈ row.entries, T.shape.store.Fits e.1 e.2) (order : RangeOrder) :
    (T.upsert order id vec row).2 = none := by
  have herr : T.shape.rowError order row = none := by
    rw [Shape.rowError, (MetadataStore.writeRow_ok_iff order).mpr hrow]
    rfl
  unfold upsert
  rcases hid : T.now id with _ | e
  · simp [insert_snd, hdim, hid, herr]
  · simp [insert_snd, hdim, herr, retire]

namespace Collection

variable {c : Collection} {di slot : ℕ} {s : Segment} {id : PointID} {p : UInt32}
  {snap : Option Mvcc.Snapshot} {e : Entry}

theorem Owned.entry_eq (ho : c.Owned) (hc : c.WF) (hl : c.Live di slot s) :
    c.entry (s.backward slot) = some (c.entryAt di ⟨s.seqNum, slot⟩) :=
  entry_some (ho di slot s hl) (hc.seqs di s hl.seg)

theorem entry_vec (he : c.entry id = some e) : ∃ src, e.vec = c.codec.decode src := by
  obtain ⟨loc, -, he⟩ := Option.bind_eq_some_iff.mp he
  obtain ⟨di, -, rfl⟩ := Option.map_eq_some_iff.mp he
  exact ⟨_, rfl⟩

theorem WF.live_of_entry (hc : c.WF) (he : c.entry id = some e) :
    ∃ di slot s, c.Live di slot s ∧ s.backward slot = id := by
  rcases hl : c.idmap.fwd id with _ | loc
  · rw [entry_none hl] at he
    cases he
  · obtain ⟨di, s, -, hs, hslot, hlive, hback⟩ := hc.located id loc hl
    exact ⟨di, loc.slotPos, s, ⟨hs, hslot, hlive⟩, hback⟩

theorem Owned.fetch_eq (ho : c.Owned) (hc : c.WF) (hl : c.Live di slot s)
    (hp : p.toNat = di * c.capacity.toNat + slot) (cols : List ColID)
    (hvis : ∀ ver, visibleIn snap ver = true) : ∃ e, c.entry (s.backward slot) = some e ∧
      c.fetch p (some cols) snap = .ok ⟨p, s.backward slot, e.vec, e.project cols⟩ := by
  refine ⟨_, ho.entry_eq hc hl, ?_⟩
  rw [hl.fetch hc hp (some cols) (hvis _), c.projectMeta_entryAt di ⟨s.seqNum, slot⟩, entryAt,
    seg_eq hl.seg]

theorem Owned.mem_scan (ho : c.Owned) (hc : c.WF) (hg : c.InGrid)
    (hvis : ∀ ver, visibleIn snap ver = true) {x : UInt32 × Vec} (hx : x ∈ c.scanVectors snap) :
    ∃ id e, c.entry id = some e ∧ c.lookupPos x.1 = .ok id ∧ x.2 = e.vec ∧
      ∀ cols, c.fetch x.1 (some cols) snap = .ok ⟨x.1, id, e.vec, e.project cols⟩ := by
  obtain ⟨di, slot, s, hl, -, rfl⟩ := hc.mem_scanVectors.mp hx
  have hp := c.colPos_toNat (hg di slot s hl)
  refine ⟨s.backward slot, _, ho.entry_eq hc hl, (lookupPos_eq_ok hc).mpr ⟨di, slot, s, hl, hp, rfl⟩,
    by rw [entryAt, seg_eq hl.seg], fun cols => ?_⟩
  obtain ⟨e, he, hfetch⟩ := ho.fetch_eq hc hl hp cols hvis
  rw [hfetch, ← Option.some.inj ((ho.entry_eq hc hl).symm.trans he)]

theorem WF.exists_scan (hc : c.WF) (hg : c.InGrid) (hvis : ∀ ver, visibleIn snap ver = true)
    (he : c.entry id = some e) : ∃ x ∈ c.scanVectors snap, c.lookupPos x.1 = .ok id := by
  obtain ⟨di, slot, s, hl, hback⟩ := hc.live_of_entry he
  refine ⟨_, hc.mem_scanVectors.mpr ⟨di, slot, s, hl, hvis _, rfl⟩, ?_⟩
  exact (lookupPos_eq_ok hc).mpr ⟨di, slot, s, hl, c.colPos_toNat (hg di slot s hl), hback⟩

theorem Owned.scan_inj (ho : c.Owned) (hc : c.WF) (hg : c.InGrid) {x y : UInt32 × Vec}
    (hx : x ∈ c.scanVectors snap) (hy : y ∈ c.scanVectors snap)
    (h : c.lookupPos x.1 = c.lookupPos y.1) : x = y := by
  obtain ⟨di, slot, s, hl, -, rfl⟩ := hc.mem_scanVectors.mp hx
  obtain ⟨di', slot', s', hl', -, rfl⟩ := hc.mem_scanVectors.mp hy
  have hx' := (lookupPos_eq_ok hc).mpr ⟨di, slot, s, hl, c.colPos_toNat (hg di slot s hl), rfl⟩
  have hy' :=
    (lookupPos_eq_ok hc).mpr ⟨di', slot', s', hl', c.colPos_toNat (hg di' slot' s' hl'), rfl⟩
  rw [hx', hy'] at h
  obtain ⟨rfl, rfl⟩ := ho.unique hc hl hl' (Except.ok.inj h)
  cases hl.seg.symm.trans hl'.seg
  rfl

end Collection

end VecDb.Storage
