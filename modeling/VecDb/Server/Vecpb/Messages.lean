import Mathlib.Data.Finmap
import VecDb.Base.Float
import VecDb.Server.Vecpb.Safety

/-! # The messages of the service

Each message has its record, and for each field number of its decoder what the field holds and how
it changes the record. Of the messages that the server sends, none is decoded here.
-/

namespace VecDb.Vecpb

open Proto (Rule Schema)

inductive ValueKind where
  | null
  | int
  | float
  | bool
  | str
  | bytes
  deriving DecidableEq

inductive ClauseKind where
  | none
  | must
  | should
  | mustNot
  | cond
  deriving DecidableEq

inductive TestKind where
  | none
  | range
  | match_
  | isNull
  deriving DecidableEq

structure Value where
  kind : ValueKind := .null
  intVal : Int64 := 0
  floatVal : Float64 := ⟨0⟩
  boolVal : Bool := false
  strVal : Bytes := []
  bytesVal : Bytes := []
  deriving DecidableEq

structure Vector where
  data : Bytes := []
  deriving DecidableEq

abbrev StringMap := Finmap fun _ : Bytes => Bytes

abbrev Payload := Finmap fun _ : Bytes => Value

structure Point where
  id : UInt64 := 0
  vector : Option Vector := none
  payload : Payload := ∅
  deriving DecidableEq

structure RangeTest where
  gt : Option Float64 := none
  gte : Option Float64 := none
  lt : Option Float64 := none
  lte : Option Float64 := none
  deriving DecidableEq

structure MatchTest where
  value : Option Value := none
  deriving DecidableEq

structure NullTest where
  isNull : Bool := false
  deriving DecidableEq

structure Condition where
  field : Bytes := []
  kind : TestKind := .none
  range : Option RangeTest := none
  match_ : Option MatchTest := none
  isNull : Option NullTest := none
  deriving DecidableEq

structure Filter where
  kind : ClauseKind := .none
  children : List Filter := []
  cond : Option Condition := none

structure UpsertRequest where
  collection : Bytes := []
  points : List Point := []
  wait : Bool := false
  deriving DecidableEq

structure DeleteRequest where
  collection : Bytes := []
  ids : List UInt64 := []
  deriving DecidableEq

structure GetPointsRequest where
  collection : Bytes := []
  ids : List UInt64 := []
  withVectors : Bool := false
  withPayload : Bool := false
  deriving DecidableEq

/-- The strategy is a number, which need not be one of those that have a name. -/
structure QueryRequest where
  collection : Bytes := []
  queryVector : Option Vector := none
  topK : UInt32 := 0
  filter : Option Filter := none
  strategy : Int32 := 0
  params : StringMap := ∅
  withVectors : Bool := false
  withPayload : Bool := false
  indexName : Bytes := []

structure BatchQueryRequest where
  collection : Bytes := []
  queries : List QueryRequest := []

structure StreamQueryRequest where
  request : Option QueryRequest := none
  pageSize : UInt32 := 0

structure ScrollRequest where
  collection : Bytes := []
  filter : Option Filter := none
  limit : UInt32 := 0
  offsetToken : Bytes := []
  withVectors : Bool := false
  withPayload : Bool := false

structure CollectionConfig where
  dim : UInt32 := 0
  metric : Int32 := 0
  indexType : Bytes := []
  indexParams : StringMap := ∅
  columnTypes : StringMap := ∅
  deriving DecidableEq

structure CreateCollectionRequest where
  name : Bytes := []
  config : Option CollectionConfig := none
  deriving DecidableEq

structure ReindexRequest where
  collection : Bytes := []
  indexType : Bytes := []
  params : StringMap := ∅
  deriving DecidableEq

structure VacuumRequest where
  collection : Bytes := []
  all : Bool := false
  deriving DecidableEq

structure BackupRequest where
  destPath : Bytes := []
  walCheckpoint : Bool := false
  deriving DecidableEq

/-- What is decoded: requests, the messages inside them, and the entries of maps. -/
inductive Message where
  | value
  | vector
  | point
  | stringMapEntry
  | valueMapEntry
  | filter
  | childList
  | condition
  | rangeTest
  | matchTest
  | nullTest
  | upsertRequest
  | deleteRequest
  | getPointsRequest
  | queryRequest
  | batchQueryRequest
  | streamQueryRequest
  | scrollRequest
  | collectionConfig
  | createCollectionRequest
  | dropCollectionRequest
  | getCollectionRequest
  | listCollectionsRequest
  | reindexRequest
  | vacuumRequest
  | backupRequest
  | operationStatusRequest
  | healthRequest
  deriving DecidableEq

abbrev Message.Carrier : Message → Type
  | value => Value
  | vector => Vector
  | point => Point
  | stringMapEntry => Bytes × Bytes
  | valueMapEntry => Bytes × Value
  | filter => Filter
  | childList => List Filter
  | condition => Condition
  | rangeTest => RangeTest
  | matchTest => MatchTest
  | nullTest => NullTest
  | upsertRequest => UpsertRequest
  | deleteRequest => DeleteRequest
  | getPointsRequest => GetPointsRequest
  | queryRequest => QueryRequest
  | batchQueryRequest => BatchQueryRequest
  | streamQueryRequest => StreamQueryRequest
  | scrollRequest => ScrollRequest
  | collectionConfig => CollectionConfig
  | createCollectionRequest => CreateCollectionRequest
  | dropCollectionRequest | getCollectionRequest | operationStatusRequest => Bytes
  | listCollectionsRequest | healthRequest => Unit
  | reindexRequest => ReindexRequest
  | vacuumRequest => VacuumRequest
  | backupRequest => BackupRequest

abbrev Rules (σ : Type) := ℕ → Option (Rule Message.Carrier σ)

def flag {σ : Type} (set : Bool → σ → σ) : Rule Message.Carrier σ := .varint fun n => set (n != 0)

def valueRules : Rules Value
  | 1 => some (.varint fun n v => { v with kind := .int, intVal := n.toInt64 })
  | 2 => some (.double fun d v => { v with kind := .float, floatVal := ⟨d⟩ })
  | 3 => some (flag fun b v => { v with kind := .bool, boolVal := b })
  | 4 => some (.bytes fun s v => { v with kind := .str, strVal := s })
  | 5 => some (.bytes fun p v => { v with kind := .bytes, bytesVal := p })
  | _ => none

def vectorRules : Rules Vector
  | 1 => some (.bytes fun p v => { v with data := p })
  | _ => none

def stringMapEntryRules : Rules (Bytes × Bytes)
  | 1 => some (.bytes fun k e => (k, e.2))
  | 2 => some (.bytes fun v e => (e.1, v))
  | _ => none

def valueMapEntryRules : Rules (Bytes × Value)
  | 1 => some (.bytes fun k e => (k, e.2))
  | 2 => some (.message .value fun v e => (e.1, v))
  | _ => none

def pointRules : Rules Point
  | 1 => some (.varint fun n p => { p with id := n })
  | 2 => some (.message .vector fun v p => { p with vector := some v })
  | 3 => some (.message .valueMapEntry fun e p => { p with payload := p.payload.insert e.1 e.2 })
  | _ => none

def rangeTestRules : Rules RangeTest
  | 1 => some (.double fun d r => { r with gt := some ⟨d⟩ })
  | 2 => some (.double fun d r => { r with gte := some ⟨d⟩ })
  | 3 => some (.double fun d r => { r with lt := some ⟨d⟩ })
  | 4 => some (.double fun d r => { r with lte := some ⟨d⟩ })
  | _ => none

def matchTestRules : Rules MatchTest
  | 1 => some (.message .value fun v m => { m with value := some v })
  | _ => none

def nullTestRules : Rules NullTest
  | 1 => some (flag fun b n => { n with isNull := b })
  | _ => none

def conditionRules : Rules Condition
  | 1 => some (.bytes fun s c => { c with field := s })
  | 2 => some (.message .rangeTest fun r c => { c with kind := .range, range := some r })
  | 3 => some (.message .matchTest fun m c => { c with kind := .match_, match_ := some m })
  | 4 => some (.message .nullTest fun n c => { c with kind := .isNull, isNull := some n })
  | _ => none

def childListRules : Rules (List Filter)
  | 1 => some (.message .filter fun f fs => fs ++ [f])
  | _ => none

def filterRules : Rules Filter
  | 1 => some (.message .childList fun fs f => { f with children := fs, kind := .must })
  | 2 => some (.message .childList fun fs f => { f with children := fs, kind := .should })
  | 3 => some (.message .childList fun fs f => { f with children := fs, kind := .mustNot })
  | 4 => some (.message .condition fun c f => { f with kind := .cond, cond := some c })
  | _ => none

def upsertRequestRules : Rules UpsertRequest
  | 1 => some (.bytes fun s m => { m with collection := s })
  | 2 => some (.message .point fun p m => { m with points := m.points ++ [p] })
  | 3 => some (flag fun b m => { m with wait := b })
  | _ => none

def deleteRequestRules : Rules DeleteRequest
  | 1 => some (.bytes fun s m => { m with collection := s })
  | 2 => some (.repeated (·.ids) fun ids m => { m with ids })
  | _ => none

def getPointsRequestRules : Rules GetPointsRequest
  | 1 => some (.bytes fun s m => { m with collection := s })
  | 2 => some (.repeated (·.ids) fun ids m => { m with ids })
  | 3 => some (flag fun b m => { m with withVectors := b })
  | 4 => some (flag fun b m => { m with withPayload := b })
  | _ => none

def queryRequestRules : Rules QueryRequest
  | 1 => some (.bytes fun s m => { m with collection := s })
  | 2 => some (.message .vector fun v m => { m with queryVector := some v })
  | 3 => some (.varint fun n m => { m with topK := n.toUInt32 })
  | 4 => some (.message .filter fun f m => { m with filter := some f })
  | 5 => some (.varint fun n m => { m with strategy := n.toUInt32.toInt32 })
  | 6 => some (.message .stringMapEntry fun e m => { m with params := m.params.insert e.1 e.2 })
  | 7 => some (flag fun b m => { m with withVectors := b })
  | 8 => some (flag fun b m => { m with withPayload := b })
  | 9 => some (.bytes fun s m => { m with indexName := s })
  | _ => none

def batchQueryRequestRules : Rules BatchQueryRequest
  | 1 => some (.bytes fun s m => { m with collection := s })
  | 2 => some (.message .queryRequest fun q m => { m with queries := m.queries ++ [q] })
  | _ => none

def streamQueryRequestRules : Rules StreamQueryRequest
  | 1 => some (.message .queryRequest fun q m => { m with request := some q })
  | 2 => some (.varint fun n m => { m with pageSize := n.toUInt32 })
  | _ => none

def scrollRequestRules : Rules ScrollRequest
  | 1 => some (.bytes fun s m => { m with collection := s })
  | 2 => some (.message .filter fun f m => { m with filter := some f })
  | 3 => some (.varint fun n m => { m with limit := n.toUInt32 })
  | 4 => some (.bytes fun p m => { m with offsetToken := p })
  | 5 => some (flag fun b m => { m with withVectors := b })
  | 6 => some (flag fun b m => { m with withPayload := b })
  | _ => none

def collectionConfigRules : Rules CollectionConfig
  | 1 => some (.varint fun n c => { c with dim := n.toUInt32 })
  | 2 => some (.varint fun n c => { c with metric := n.toUInt32.toInt32 })
  | 3 => some (.bytes fun s c => { c with indexType := s })
  | 4 => some (.message .stringMapEntry fun e c =>
      { c with indexParams := c.indexParams.insert e.1 e.2 })
  | 5 => some (.message .stringMapEntry fun e c =>
      { c with columnTypes := c.columnTypes.insert e.1 e.2 })
  | _ => none

def createCollectionRequestRules : Rules CreateCollectionRequest
  | 1 => some (.bytes fun s m => { m with name := s })
  | 2 => some (.message .collectionConfig fun c m => { m with config := some c })
  | _ => none

/-- A request that holds one text: a name or the id of an operation. -/
def textRules : Rules Bytes
  | 1 => some (.bytes fun s _ => s)
  | _ => none

def emptyRules : Rules Unit := fun _ => none

def reindexRequestRules : Rules ReindexRequest
  | 1 => some (.bytes fun s m => { m with collection := s })
  | 2 => some (.bytes fun s m => { m with indexType := s })
  | 3 => some (.message .stringMapEntry fun e m => { m with params := m.params.insert e.1 e.2 })
  | _ => none

def vacuumRequestRules : Rules VacuumRequest
  | 1 => some (.bytes fun s m => { m with collection := s })
  | 2 => some (flag fun b m => { m with all := b })
  | _ => none

def backupRequestRules : Rules BackupRequest
  | 1 => some (.bytes fun s m => { m with destPath := s })
  | 2 => some (flag fun b m => { m with walCheckpoint := b })
  | _ => none

def Message.init : (m : Message) → m.Carrier
  | value | vector | point | filter | condition | rangeTest | matchTest | nullTest
  | upsertRequest | deleteRequest | getPointsRequest | queryRequest | batchQueryRequest
  | streamQueryRequest | scrollRequest | collectionConfig | createCollectionRequest
  | reindexRequest | vacuumRequest | backupRequest => {}
  | stringMapEntry => ([], [])
  | valueMapEntry => ([], {})
  | childList | dropCollectionRequest | getCollectionRequest | operationStatusRequest => []
  | listCollectionsRequest | healthRequest => ()

def Message.rules : (m : Message) → Rules m.Carrier
  | value => valueRules
  | vector => vectorRules
  | point => pointRules
  | stringMapEntry => stringMapEntryRules
  | valueMapEntry => valueMapEntryRules
  | filter => filterRules
  | childList => childListRules
  | condition => conditionRules
  | rangeTest => rangeTestRules
  | matchTest => matchTestRules
  | nullTest => nullTestRules
  | upsertRequest => upsertRequestRules
  | deleteRequest => deleteRequestRules
  | getPointsRequest => getPointsRequestRules
  | queryRequest => queryRequestRules
  | batchQueryRequest => batchQueryRequestRules
  | streamQueryRequest => streamQueryRequestRules
  | scrollRequest => scrollRequestRules
  | collectionConfig => collectionConfigRules
  | createCollectionRequest => createCollectionRequestRules
  | dropCollectionRequest | getCollectionRequest | operationStatusRequest => textRules
  | listCollectionsRequest | healthRequest => emptyRules
  | reindexRequest => reindexRequestRules
  | vacuumRequest => vacuumRequestRules
  | backupRequest => backupRequestRules

abbrev vecpb : Schema where
  Msg := Message
  Carrier := Message.Carrier
  init := Message.init
  rules := Message.rules

/-- Whatever the bytes, a decoder ends with a message or an error, inside the buffer and without
turning back, unless it meets a length that passes the largest machine integer. -/
theorem decoder_ends_iff (m : Message) (data : Bytes) (hsize : data.length + 8 < maxInt) :
    Ends vecpb m data ↔ ¬ Proto.Overlong vecpb maxInt m data.length data :=
  ends_iff hsize

def nestedPoint : Bytes :=
  [0x08, 0x05, 0x12, 0x02, 0x0a, 0x00, 0x1a, 0x07, 0x0a, 0x01, 0x61, 0x12, 0x02, 0x08, 0x05]

theorem decoder_ends_iff_point : nestedPoint.length + 8 < maxInt ∧
    (Ends vecpb Message.point nestedPoint ↔
      ¬ Proto.Overlong vecpb maxInt Message.point 15 nestedPoint) :=
  ⟨by decide, decoder_ends_iff .point nestedPoint (by decide)⟩

/-- An unknown field whose length takes the position back to the start of the buffer. -/
def loopingValue : Bytes :=
  [0x7a, 0xf5, 0xff, 0xff, 0xff, 0xff, 0xff, 0xff, 0xff, 0xff, 0x01]

theorem looping_value_never_ends : ¬ Ends vecpb Message.value loopingValue := by
  have ht : Proto.tag loopingValue = some ((15, 2), loopingValue.tail) := rfl
  have hn : Varint.get loopingValue.tail = some (0xfffffffffffffff5, []) := rfl
  rw [ends_iff (by decide), not_not]
  exact .here ht rfl hn (by decide)

end VecDb.Vecpb
