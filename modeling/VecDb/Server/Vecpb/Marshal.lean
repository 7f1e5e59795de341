import VecDb.Server.Vecpb.Messages

/-! # Encoding and the round trip

The encoders write the fields of a record that are set, the entries of a map in any order. What is
written decodes to the same message, also after fields of unknown numbers were added.
-/

namespace VecDb.Vecpb

open Proto List Varint Message Finmap

def wireVarint : ℕ := 0
def wireFixed64 : ℕ := 1
def wireBytes : ℕ := 2

def appendVarint (b : Bytes) (x : UInt64) : Bytes := b ++ Varint.put x

def appendTag (b : Bytes) (field wire : ℕ) : Bytes :=
  appendVarint b (UInt64.ofNat (field * 8 + wire))

def appendVarintFieldAlways (b : Bytes) (field : ℕ) (v : UInt64) : Bytes :=
  appendVarint (appendTag b field wireVarint) v

def appendVarintField (b : Bytes) (field : ℕ) (v : UInt64) : Bytes :=
  if v = 0 then b else appendVarintFieldAlways b field v

def appendBoolFieldAlways (b : Bytes) (field : ℕ) (v : Bool) : Bytes :=
  appendVarintFieldAlways b field (if v then 1 else 0)

def appendBoolField (b : Bytes) (field : ℕ) (v : Bool) : Bytes :=
  if !v then b else appendVarintFieldAlways b field 1

def appendDoubleFieldAlways (b : Bytes) (field : ℕ) (v : Float64) : Bytes :=
  appendTag b field wireFixed64 ++ Bytes.le64 v.bits

def appendBytesFieldAlways (b : Bytes) (field : ℕ) (p : Bytes) : Bytes :=
  appendVarint (appendTag b field wireBytes) (UInt64.ofNat p.length) ++ p

def appendBytesField (b : Bytes) (field : ℕ) (p : Bytes) : Bytes :=
  if p.length = 0 then b else appendBytesFieldAlways b field p

def appendStringField (b : Bytes) (field : ℕ) (s : Bytes) : Bytes :=
  if s = [] then b else appendBytesFieldAlways b field s

def appendMessageField (b : Bytes) (field : ℕ) (msg : Bytes) (emitEmpty : Bool) : Bytes :=
  if msg.length = 0 && !emitEmpty then b else appendBytesFieldAlways b field msg

def Value.marshal (v : Value) : Bytes :=
  match v.kind with
  | .int => appendVarintFieldAlways [] 1 v.intVal.toUInt64
  | .float => appendDoubleFieldAlways [] 2 v.floatVal
  | .bool => appendBoolFieldAlways [] 3 v.boolVal
  | .str => appendBytesFieldAlways [] 4 v.strVal
  | .bytes => appendBytesFieldAlways [] 5 v.bytesVal
  | .null => []

def Vector.marshal (v : Vector) : Bytes := appendBytesField [] 1 v.data

/-- A map as the list of its entries in some order. -/
abbrev Order := AList fun _ : Bytes => Value

def marshalEntry (k : Bytes) (v : Value) : Bytes :=
  appendMessageField (appendBytesFieldAlways [] 1 k) 2 v.marshal true

def Point.marshal (p : Point) (order : Order) : Bytes :=
  let b := appendVarintField [] 1 p.id
  let b := match p.vector with
    | some v => appendMessageField b 2 v.marshal true
    | none => b
  order.entries.foldl (fun b e => appendMessageField b 3 (marshalEntry e.1 e.2) true) b

/-- A bound is written when it is there, also if it is zero. -/
def appendBound (b : Bytes) (field : ℕ) : Option Float64 → Bytes
  | some v => appendDoubleFieldAlways b field v
  | none => b

def RangeTest.marshal (r : RangeTest) : Bytes :=
  appendBound (appendBound (appendBound (appendBound [] 1 r.gt) 2 r.gte) 3 r.lt) 4 r.lte

def MatchTest.marshal (m : MatchTest) : Bytes :=
  match m.value with
  | some v => appendMessageField [] 1 v.marshal true
  | none => []

def NullTest.marshal (n : NullTest) : Bytes := appendBoolField [] 1 n.isNull

def Condition.marshal (c : Condition) : Bytes :=
  let b := appendStringField [] 1 c.field
  match c.kind with
  | .range => match c.range with
    | some r => appendMessageField b 2 r.marshal true
    | none => b
  | .match_ => match c.match_ with
    | some m => appendMessageField b 3 m.marshal true
    | none => b
  | .isNull => match c.isNull with
    | some n => appendMessageField b 4 n.marshal true
    | none => b
  | .none => b

mutual

def Filter.marshal : Filter → Bytes
  | ⟨.must, children, _⟩ => appendMessageField [] 1 (marshalChildList [] children) true
  | ⟨.should, children, _⟩ => appendMessageField [] 2 (marshalChildList [] children) true
  | ⟨.mustNot, children, _⟩ => appendMessageField [] 3 (marshalChildList [] children) true
  | ⟨.cond, _, some c⟩ => appendMessageField [] 4 c.marshal true
  | ⟨.cond, _, none⟩ => []
  | ⟨.none, _, _⟩ => []

def marshalChildList (b : Bytes) : List Filter → Bytes
  | [] => b
  | c :: children => marshalChildList (appendMessageField b 1 c.marshal true) children

end

def UpsertRequest.marshal (m : UpsertRequest) (orders : List Order) : Bytes :=
  let b := appendStringField [] 1 m.collection
  let b := (m.points.zip orders).foldl
    (fun b e => appendMessageField b 2 (e.1.marshal e.2) true) b
  appendBoolField b 3 m.wait

section Fields

variable {S : Schema} {m : S.Msg} {x y : S.Carrier m} {b : Bytes} {f : ℕ}
  {set : UInt64 → S.Carrier m → S.Carrier m} {p : Bytes}

theorem tag_appendTag {w : ℕ} (hf : f < 16) (hw : w < 8) (rest : Bytes) :
    tag (appendTag [] f w ++ rest) = some ((f, w), rest) := by
  have hkey : (UInt64.ofNat (f * 8 + w)).toNat = f * 8 + w := by
    rw [UInt64.toNat_ofNat', Nat.mod_eq_of_lt (by omega)]
  rw [tag, appendTag, appendVarint, nil_append, get_put]
  dsimp only [mapRead, filterRead, Option.bind_some, Option.map_some]
  rw [hkey, show (f * 8 + w) / 8 = f by omega, show (f * 8 + w) % 8 = w by omega]

theorem appendTag_eq {w : ℕ} : appendTag b f w = b ++ appendTag [] f w := by
  rw [appendTag, appendVarint, appendTag, appendVarint, nil_append]

theorem chunk_put {p rest : Bytes} (hp : p.length < maxInt) :
    chunk (put (UInt64.ofNat p.length) ++ (p ++ rest)) = some (p, rest) := by
  refine chunk_eq_some.mpr ⟨_, get_put _ _, ?_⟩
  rw [maxInt] at hp
  rw [UInt64.toNat_ofNat', Nat.mod_eq_of_lt (by omega)]

/-- What was written, short enough for a slice, reads as the given change of a message. -/
def Writes (S : Schema) (m : S.Msg) (x : S.Carrier m) (b : Bytes) (y : S.Carrier m) : Prop :=
  b.length < maxInt → Reads S m x b y

namespace Writes

theorem nil (x : S.Carrier m) : Writes S m x [] x := fun _ => .nil x

theorem append {b' : Bytes} {z : S.Carrier m} (h : Writes S m x b y)
    (h' : b'.length < maxInt → Reads S m y b' z) : Writes S m x (b ++ b') z := by
  intro hlen
  rw [length_append] at hlen
  exact (h (by omega)).append (h' (by omega))

theorem varint {v : UInt64}
    (h : Writes S m x b y) (hf : f < 16) (hr : S.rules m f = some (.varint set)) :
    Writes S m x (appendVarintFieldAlways b f v) (set v y) := by
  rw [appendVarintFieldAlways, appendVarint, appendTag_eq, append_assoc]
  refine h.append fun _ => .plain (tag_appendTag hf (by decide) _) ?_ (.nil _)
  rw [hr, ← append_nil (put v), plain, get_put]
  rfl

theorem double {v : Float64}
    (h : Writes S m x b y) (hf : f < 16) (hr : S.rules m f = some (.double set)) :
    Writes S m x (appendDoubleFieldAlways b f v) (set v.bits y) := by
  rw [appendDoubleFieldAlways, appendTag_eq, append_assoc]
  refine h.append fun _ => .plain (tag_appendTag hf (by decide) _) ?_ (.nil _)
  have hfix : fixed 8 (Bytes.le64 v.bits) = some (Bytes.le64 v.bits, []) := by
    rw [fixed, if_pos (by simp), take_of_length_le (by simp), drop_of_length_le (by simp)]
  rw [hr, plain, hfix]
  dsimp only [mapRead, filterRead, Option.bind_some, Option.map_some]
  rw [Bytes.getLE_le64]

theorem appendBytes_eq : appendBytesFieldAlways b f p =
    b ++ (appendTag [] f wireBytes ++ (put (UInt64.ofNat p.length) ++ p)) := by
  rw [appendBytesFieldAlways, appendVarint, appendTag_eq, append_assoc, append_assoc]

theorem length_le_append {a c d : Bytes} (h : (a ++ (c ++ d)).length < maxInt) :
    d.length < maxInt := by
  simp only [length_append] at h
  omega

theorem bytes {set : Bytes → S.Carrier m → S.Carrier m}
    (h : Writes S m x b y) (hf : f < 16) (hr : S.rules m f = some (.bytes set)) :
    Writes S m x (appendBytesFieldAlways b f p) (set p y) := by
  rw [appendBytes_eq]
  refine h.append fun hlen => .plain (tag_appendTag hf (by decide) _) ?_ (.nil _)
  have hc := @chunk_put p [] (length_le_append hlen)
  rw [append_nil] at hc
  rw [hr, plain, hc]
  rfl

theorem message {m' : S.Msg} {set : S.Carrier m' → S.Carrier m → S.Carrier m}
    {v : S.Carrier m'} (h : Writes S m x b y) (hf : f < 16)
    (hr : S.rules m f = some (.message m' set)) (hv : Writes S m' (S.init m') p v) :
    Writes S m x (appendMessageField b f p true) (set v y) := by
  rw [appendMessageField, Bool.not_true, Bool.and_false, if_neg Bool.false_ne_true, appendBytes_eq]
  refine h.append fun hlen => ?_
  have hp := length_le_append hlen
  have hc := @chunk_put p [] hp
  rw [append_nil] at hc
  exact .message (tag_appendTag hf (by decide) _) hr hc (hv hp) (.nil _)

theorem bound {o : Option Float64}
    (h : Writes S m x b y) (hf : f < 16) (hr : S.rules m f = some (.double set)) :
    Writes S m x (appendBound b f o) (o.elim y fun v => set v.bits y) := by
  cases o with
  | none => exact h
  | some v => exact h.double hf hr

end Writes

end Fields

/-- The kind says which slot of a value is set. -/
def Value.WellFormed (v : Value) : Prop :=
  match v.kind with
  | .null => v = {}
  | .int => v = { kind := .int, intVal := v.intVal }
  | .float => v = { kind := .float, floatVal := v.floatVal }
  | .bool => v = { kind := .bool, boolVal := v.boolVal }
  | .str => v = { kind := .str, strVal := v.strVal }
  | .bytes => v = { kind := .bytes, bytesVal := v.bytesVal }

theorem Writes.start (m : Message) : Writes vecpb m m.init [] m.init := .nil _

theorem Value.writes {v : Value} (h : v.WellFormed) :
    Writes vecpb Message.value {} v.marshal v := by
  have hstart := Writes.start .value
  rcases v with ⟨_ | _ | _ | _ | _ | _, i, d, b, s, p⟩ <;> cases h
  · exact hstart
  · exact hstart.varint (f := 1) (by decide) rfl
  · exact hstart.double (f := 2) (by decide) rfl
  · have hb := hstart.varint (f := 3) (v := if b then 1 else 0) (by decide) rfl
    cases b <;> exact hb
  · exact hstart.bytes (f := 4) (by decide) rfl
  · exact hstart.bytes (f := 5) (by decide) rfl

theorem Vector.writes (v : Vector) : Writes vecpb Message.vector {} v.marshal v := by
  rcases v with ⟨data⟩
  rw [Vector.marshal, appendBytesField]
  split
  · rename_i hd
    cases eq_nil_of_length_eq_zero hd
    exact .nil _
  · exact (Writes.start .vector).bytes (f := 1) (by decide) rfl

theorem marshalEntry_writes {k : Bytes} {v : Value} (h : v.WellFormed) :
    Writes vecpb valueMapEntry ([], {}) (marshalEntry k v) (k, v) := by
  have hkey := (Writes.start .valueMapEntry).bytes (f := 1) (p := k) (by decide) rfl
  exact hkey.message (f := 2) (by decide) rfl (Value.writes h)

theorem RangeTest.writes (r : RangeTest) : Writes vecpb Message.rangeTest {} r.marshal r := by
  have h := (((Writes.start .rangeTest).bound (f := 1) (o := r.gt) (by decide) rfl).bound (f := 2)
    (o := r.gte) (by decide) rfl).bound (f := 3) (o := r.lt) (by decide) rfl
  have h := h.bound (f := 4) (o := r.lte) (by decide) rfl
  rcases r with ⟨_ | _, _ | _, _ | _, _ | _⟩ <;> exact h

theorem NullTest.writes (n : NullTest) : Writes vecpb Message.nullTest {} n.marshal n := by
  rcases n with ⟨_ | _⟩
  · exact Writes.start .nullTest
  · exact (Writes.start .nullTest).varint (f := 1) (by decide) rfl

def MatchTest.WellFormed (m : MatchTest) : Prop := ∀ v, m.value = some v → v.WellFormed

theorem MatchTest.writes {m : MatchTest} (h : m.WellFormed) :
    Writes vecpb Message.matchTest {} m.marshal m := by
  rcases m with ⟨_ | v⟩
  · exact Writes.start .matchTest
  · exact (Writes.start .matchTest).message (f := 1) (by decide) rfl (Value.writes (h v rfl))

/-- The kind says which test of a condition is there. -/
def Condition.WellFormed (c : Condition) : Prop :=
  match c.kind with
  | .none => c = { field := c.field }
  | .range => ∃ r, c = { field := c.field, kind := .range, range := some r }
  | .match_ => ∃ m, c = { field := c.field, kind := .match_, match_ := some m } ∧ m.WellFormed
  | .isNull => ∃ n, c = { field := c.field, kind := .isNull, isNull := some n }

theorem Condition.writes {c : Condition} (h : c.WellFormed) :
    Writes vecpb Message.condition {} c.marshal c := by
  have hfield : Writes vecpb Message.condition {} (appendStringField [] 1 c.field)
      ({ field := c.field } : Condition) := by
    rw [appendStringField]
    split
    · rename_i hs
      rw [hs]
      exact Writes.start .condition
    · exact (Writes.start .condition).bytes (f := 1) (by decide) rfl
  rcases c with ⟨s, _ | _ | _ | _, r, m, n⟩
  · cases h
    exact hfield
  · obtain ⟨r, hr⟩ := h
    cases hr
    exact hfield.message (f := 2) (by decide) rfl r.writes
  · obtain ⟨m, hm, hwf⟩ := h
    cases hm
    exact hfield.message (f := 3) (by decide) rfl (MatchTest.writes hwf)
  · obtain ⟨n, hn⟩ := h
    cases hn
    exact hfield.message (f := 4) (by decide) rfl n.writes

/-- A clause has children or a condition, as its kind says. -/
inductive Filter.WellFormed : Filter → Prop where
  | none : WellFormed {}
  | group {kind : ClauseKind} {children : List Filter}
      (hk : kind = .must ∨ kind = .should ∨ kind = .mustNot)
      (h : ∀ c ∈ children, WellFormed c) : WellFormed { kind, children }
  | cond {c : Condition} (h : c.WellFormed) : WellFormed { kind := .cond, cond := some c }

variable {b : Bytes}

theorem marshalChildList_writes {children done : List Filter}
    (h : ∀ c ∈ children, Writes vecpb filter {} c.marshal c)
    (hb : Writes vecpb childList [] b done) :
    Writes vecpb childList [] (marshalChildList b children) (done ++ children) := by
  induction children generalizing b done with
  | nil =>
    rw [marshalChildList, append_nil]
    exact hb
  | cons c children ih =>
    rw [marshalChildList, append_cons]
    refine ih (fun d hd => h d (mem_cons_of_mem c hd)) ?_
    exact hb.message (f := 1) (by decide) rfl (h c mem_cons_self)

theorem Filter.writes {f : Filter} (h : f.WellFormed) :
    Writes vecpb Message.filter {} f.marshal f := by
  induction h with
  | none => rw [Filter.marshal]; exact Writes.start .filter
  | group hk _ ih =>
    have hlist := marshalChildList_writes ih (Writes.start .childList)
    rcases hk with rfl | rfl | rfl
    · rw [Filter.marshal]
      exact (Writes.start .filter).message (f := 1) (by decide) rfl hlist
    · rw [Filter.marshal]
      exact (Writes.start .filter).message (f := 2) (by decide) rfl hlist
    · rw [Filter.marshal]
      exact (Writes.start .filter).message (f := 3) (by decide) rfl hlist
  | cond h =>
    rw [Filter.marshal]
    exact (Writes.start .filter).message (f := 4) (by decide) rfl (Condition.writes h)

def Point.WellFormed (p : Point) : Prop := ∀ k v, p.payload.lookup k = some v → v.WellFormed

theorem foldl_insert_entries (order : Order) :
    order.entries.foldl (fun (m : Payload) e => m.insert e.1 e.2) ∅ = order.toFinmap := by
  have hlookup : ∀ (l : List (Sigma fun _ : Bytes => Value)) (s : Payload) k,
      l.NodupKeys → (l.foldl (fun (m : Payload) e => m.insert e.1 e.2) s).lookup k =
        (l.dlookup k <|> s.lookup k) := by
    intro l
    induction l with
    | nil => exact fun s k _ => by simp
    | cons e l ih =>
      rcases e with ⟨k', v⟩
      intro s k hl
      rw [nodupKeys_cons] at hl
      rw [foldl_cons, ih _ _ hl.2]
      by_cases hk : k = k'
      · subst hk
        rw [dlookup_eq_none.mpr hl.1, dlookup_cons_eq, lookup_insert]
        rfl
      · rw [dlookup_cons_ne _ _ hk, lookup_insert_of_ne _ hk]
  refine ext_lookup fun k => ?_
  rw [hlookup _ _ _ order.nodupKeys, lookup_empty, lookup_toFinmap, AList.lookup]
  cases List.dlookup k order.entries <;> rfl

theorem entries_writes {l : List (Sigma fun _ : Bytes => Value)} {p : Point}
    (h : ∀ e ∈ l, e.2.WellFormed) (hb : Writes vecpb point {} b p) : Writes vecpb point {}
      (l.foldl (fun b e => appendMessageField b 3 (marshalEntry e.1 e.2) true) b)
      { p with payload := l.foldl (fun (m : Payload) e => m.insert e.1 e.2) p.payload } := by
  induction l generalizing b p with
  | nil => exact hb
  | cons e l ih =>
    have hone := hb.message (f := 3) (by decide) rfl
      (marshalEntry_writes (k := e.1) (h e mem_cons_self))
    exact ih (fun e' he => h e' (mem_cons_of_mem e he)) hone

theorem Point.writes {p : Point} {order : Order} (h : p.WellFormed) (ho : order.toFinmap = p.payload) :
    Writes vecpb Message.point {} (p.marshal order) p := by
  have hid : Writes vecpb Message.point {} (appendVarintField [] 1 p.id) ({ id := p.id } : Point) := by
    rw [appendVarintField]
    split
    · rename_i h0
      rw [h0]
      exact Writes.start .point
    · exact (Writes.start .point).varint (f := 1) (by decide) rfl
  have hvec : Writes vecpb Message.point {} (match p.vector with
      | some v => appendMessageField (appendVarintField [] 1 p.id) 2 v.marshal true
      | none => appendVarintField [] 1 p.id) ({ id := p.id, vector := p.vector } : Point) := by
    rcases p.vector with _ | v
    · exact hid
    · exact hid.message (f := 2) (by decide) rfl v.writes
  have hwf : ∀ e ∈ order.entries, e.2.WellFormed := by
    intro e he
    refine h e.1 e.2 ?_
    rw [← ho, Finmap.lookup_toFinmap]
    exact mem_dlookup order.nodupKeys he
  have hall := entries_writes hwf hvec
  rw [foldl_insert_entries, ho] at hall
  exact hall

/-- Every point of a request is well formed; its payload may be written in any order. -/
def UpsertRequest.WellFormed (m : UpsertRequest) : Prop := ∀ p ∈ m.points, p.WellFormed

def Orders (points : List Point) (orders : List Order) : Prop :=
  List.Forall₂ (fun p order => order.toFinmap = p.payload) points orders

variable {orders : List Order}

theorem points_writes {points : List Point} {m : UpsertRequest}
    (h : ∀ p ∈ points, p.WellFormed) (ho : Orders points orders)
    (hb : Writes vecpb upsertRequest {} b m) : Writes vecpb upsertRequest {}
      ((points.zip orders).foldl (fun b e => appendMessageField b 2 (e.1.marshal e.2) true) b)
      { m with points := m.points ++ points } := by
  induction ho generalizing b m with
  | nil =>
    rw [append_nil]
    exact hb
  | @cons p order points orders hp _ ih =>
    have hone := hb.message (f := 2) (by decide) rfl (Point.writes (h p mem_cons_self) hp)
    have hall := ih (fun q hq => h q (mem_cons_of_mem p hq)) hone
    rw [append_assoc] at hall
    exact hall

theorem UpsertRequest.writes {m : UpsertRequest} (h : m.WellFormed) (ho : Orders m.points orders) :
    Writes vecpb Message.upsertRequest {} (m.marshal orders) m := by
  have hname : Writes vecpb Message.upsertRequest {} (appendStringField [] 1 m.collection)
      ({ collection := m.collection } : UpsertRequest) := by
    rw [appendStringField]
    split
    · rename_i hs
      rw [hs]
      exact Writes.start .upsertRequest
    · exact (Writes.start .upsertRequest).bytes (f := 1) (by decide) rfl
  have hpoints := points_writes h ho hname
  rcases m with ⟨s, points, _ | _⟩
  · exact hpoints
  · exact hpoints.varint (f := 3) (by decide) rfl

section Extends

variable {S : Schema} {m : S.Msg} {y : S.Carrier m} {data data' : Bytes}

/-- A field whose number the message does not use, of any wire type that can be passed over. -/
def Unused (S : Schema) (m : S.Msg) (t : Bytes) : Prop :=
  ∃ f w t₁, tag t = some ((f, w), t₁) ∧ S.rules m f = none ∧ passOver w t₁ = some ((), [])

/-- An unused field is added to a message, or to one inside it, whose length changes then. -/
inductive Extends (S : Schema) : S.Msg → Bytes → Bytes → Prop where
  | here {m : S.Msg} {data t : Bytes} (ht : Unused S m t) : Extends S m data (data ++ t)
  | inside {m m' : S.Msg} {front body body' rest : Bytes} {f : ℕ} {x : S.Carrier m}
      {set : S.Carrier m' → S.Carrier m → S.Carrier m} (hfront : Reads S m (S.init m) front x)
      (hr : S.rules m f = some (.message m' set)) (h : Extends S m' body body') :
      Extends S m (appendMessageField front f body true ++ rest)
        (appendMessageField front f body' true ++ rest)

theorem Unused.reads {t : Bytes} (h : Unused S m t) (x : S.Carrier m) : Reads S m x t x := by
  obtain ⟨f, w, t₁, ht, hr, hp⟩ := h
  refine .plain ht ?_ (.nil x)
  rw [hr, plain, hp]
  rfl

theorem appendMessage_eq {b p : Bytes} {f : ℕ} : appendMessageField b f p true =
    b ++ (appendTag [] f wireBytes ++ (put (UInt64.ofNat p.length) ++ p)) := by
  rw [appendMessageField, Bool.not_true, Bool.and_false, if_neg Bool.false_ne_true,
    Writes.appendBytes_eq]

theorem Extends.reads (hS : ∀ m f r, S.rules m f = some r → f < 16) (h : Extends S m data data')
    (hlen : data.length < maxInt) (hlen' : data'.length < maxInt)
    (hy : Reads S m (S.init m) data y) : Reads S m (S.init m) data' y := by
  induction h with
  | here ht => exact hy.append (ht.reads y)
  | @inside m m' front body body' rest f x set hfront hr _ ih =>
    simp only [appendMessage_eq, append_assoc] at hy hlen hlen' ⊢
    simp only [length_append] at hlen hlen'
    have htag : ∀ p : Bytes, p.length < maxInt → ∃ b₁,
        tag (appendTag [] f wireBytes ++ (put (UInt64.ofNat p.length) ++ (p ++ rest))) =
          some ((f, wireBytes), b₁) ∧ chunk b₁ = some (p, rest) := fun p hp =>
      ⟨_, tag_appendTag (hS _ _ _ hr) (by decide) _, chunk_put hp⟩
    obtain ⟨b₁, ht, hc⟩ := htag body (by omega)
    obtain ⟨b₁', ht', hc'⟩ := htag body' (by omega)
    rcases (hfront.of_append hy).of_tag ht with ⟨_, _, hp, _⟩ | ⟨_, _, _, _, v, hr', hc'', hv, hrest⟩
    · rw [hr] at hp
      cases hp
    · cases hr.symm.trans hr'
      cases hc.symm.trans hc''
      exact hfront.append (.message ht' hr hc' (ih (by omega) (by omega) hv) hrest)

theorem length_put_le {n n' : ℕ} (h : n ≤ n') (hn : n' < maxInt) :
    (put (UInt64.ofNat n)).length ≤ (put (UInt64.ofNat n')).length := by
  rw [maxInt] at hn
  refine length_groups_mono ?_
  rw [UInt64.toNat_ofNat', UInt64.toNat_ofNat', Nat.mod_eq_of_lt (by omega),
    Nat.mod_eq_of_lt (by omega)]
  exact h

theorem Extends.length_le (h : Extends S m data data') : data'.length < maxInt →
    data.length ≤ data'.length := by
  induction h with
  | here => simp
  | inside _ _ _ ih =>
    simp only [appendMessage_eq, length_append]
    intro hlen
    have hbody := ih (by omega)
    have hput := length_put_le hbody (by omega)
    omega

theorem reads_of_extensions (hS : ∀ m f r, S.rules m f = some r → f < 16)
    (h : Relation.ReflTransGen (Extends S m) data data') (hlen : data'.length < maxInt)
    (hy : Writes S m (S.init m) data y) : Reads S m (S.init m) data' y := by
  induction h with
  | refl => exact hy hlen
  | tail _ hstep ih =>
    have hle := hstep.length_le hlen
    exact hstep.reads hS (by omega) hlen (ih (by omega))

end Extends

theorem rules_lt {m : Message} {f : ℕ} {r : Rule Carrier m.Carrier}
    (h : m.rules f = some r) : f < 16 := by
  by_contra hf
  obtain ⟨k, rfl⟩ : ∃ k, f = k + 10 := ⟨f - 10, by omega⟩
  cases m <;> cases h

/-- A message decodes from the given bytes, and after any unused fields were added to it or
to the messages inside it. -/
def Recovered (m : Message) (x : m.Carrier) (data : Bytes) : Prop :=
  ∀ data', Relation.ReflTransGen (Extends vecpb m) data data' → data'.length + 8 < maxInt →
    ∀ n, data'.length < n →
      unmarshal vecpb n m { buf := data' } = .ok x { buf := data', pos := data'.length }

theorem Writes.recovered {m : Message} {x : m.Carrier} {data : Bytes}
    (h : Writes vecpb m m.init data x) : Recovered m x data := fun data' hext hsize n hn =>
  unmarshal_of_reads hsize
    (reads_of_extensions (fun _ _ _ => rules_lt) hext (by omega) h) hn

/-- Values, filters, points and upsert requests come back from their bytes. -/
theorem marshal_round_trip :
    (∀ v : Value, v.WellFormed → Recovered .value v v.marshal) ∧
    (∀ f : Filter, f.WellFormed → Recovered .filter f f.marshal) ∧
    (∀ (p : Point) (order : Order), p.WellFormed → order.toFinmap = p.payload →
      Recovered .point p (p.marshal order)) ∧
    ∀ (u : UpsertRequest) (orders : List Order), u.WellFormed → Orders u.points orders →
      Recovered .upsertRequest u (u.marshal orders) :=
  ⟨fun _ h => (Value.writes h).recovered, fun _ h => (Filter.writes h).recovered,
    fun _ _ h ho => (Point.writes h ho).recovered,
    fun _ _ h ho => (UpsertRequest.writes h ho).recovered⟩

def samplePoint : Point where
  vector := some { data := [0, 0, 0x80, 0x3f] }
  payload := Finmap.singleton [0x61] { kind := .bool }

theorem marshal_round_trip_sample :
    Recovered .value { kind := .int } ({ kind := .int } : Value).marshal ∧
    Recovered .filter { kind := .must, children := [{}] }
      ({ kind := .must, children := [{}] } : Filter).marshal ∧
    Recovered .point samplePoint
      (samplePoint.marshal (AList.singleton [0x61] { kind := .bool })) ∧
    Recovered .upsertRequest { points := [samplePoint] }
      (({ points := [samplePoint] } : UpsertRequest).marshal
        [AList.singleton [0x61] { kind := .bool }]) := by
  have hpoint : samplePoint.WellFormed := by
    intro k v hv
    by_cases hk : k = [0x61]
    · subst hk
      rw [samplePoint, Finmap.lookup_singleton_eq] at hv
      cases hv
      rfl
    · rw [samplePoint, Finmap.lookup_eq_none.mpr (by simpa using hk)] at hv
      cases hv
  refine ⟨marshal_round_trip.1 _ rfl, marshal_round_trip.2.1 _ (.group (.inl rfl) ?_),
    marshal_round_trip.2.2.1 _ _ hpoint rfl,
    marshal_round_trip.2.2.2 _ _ ?_ (.cons rfl .nil)⟩
  · simpa using Filter.WellFormed.none
  · simpa [UpsertRequest.WellFormed] using hpoint

end VecDb.Vecpb
