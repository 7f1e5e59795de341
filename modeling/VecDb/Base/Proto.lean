import VecDb.Base.Varint

/-! # Tagged records

A message is a sequence of records, each with a field number and a wire type. A schema says what
the fields of a message hold and where that goes; a field it does not know is passed over.
-/

namespace VecDb.Proto

/-- What a field holds, and how it changes the message. -/
inductive Rule {Msg : Type} (Carrier : Msg → Type) (σ : Type) where
  | varint (set : UInt64 → σ → σ)
  | double (set : UInt64 → σ → σ)
  | bytes (set : Bytes → σ → σ)
  | repeated (get : σ → List UInt64) (set : List UInt64 → σ → σ)
  | message (m : Msg) (set : Carrier m → σ → σ)

structure Schema where
  Msg : Type
  Carrier : Msg → Type
  init : ∀ m, Carrier m
  rules : ∀ m, ℕ → Option (Rule Carrier (Carrier m))

/-- Change what was read at the front of a text, or refuse it. -/
def filterRead {α β : Type} (g : α → Option β) (r : Option (α × Bytes)) : Option (β × Bytes) :=
  r.bind fun p => (g p.1).map fun c => (c, p.2)

def mapRead {α β : Type} (g : α → β) : Option (α × Bytes) → Option (β × Bytes) :=
  filterRead fun a => some (g a)

theorem mapRead_filterRead {α β γ : Type} (f : β → γ) (g : α → Option β) (r : Option (α × Bytes)) :
    mapRead f (filterRead g r) = filterRead (fun a => (g a).map f) r := by
  rcases r with _ | ⟨a, rest⟩
  · rfl
  · simp only [mapRead, filterRead, Option.bind_some]
    cases g a <;> rfl

theorem mapRead_mapRead {α β γ : Type} (f : β → γ) (g : α → β) (r : Option (α × Bytes)) :
    mapRead f (mapRead g r) = mapRead (fun a => f (g a)) r :=
  mapRead_filterRead f (fun a => some (g a)) r

def tag (b : Bytes) : Option ((ℕ × ℕ) × Bytes) :=
  mapRead (fun key : UInt64 => (key.toNat / 8, key.toNat % 8)) (Varint.get b)

def fixed (n : ℕ) (b : Bytes) : Option (Bytes × Bytes) :=
  if n ≤ b.length then some (b.take n, b.drop n) else none

def chunk (b : Bytes) : Option (Bytes × Bytes) :=
  (Varint.get b).bind fun p => fixed p.1.toNat p.2

/-- Numbers up to the end of a text, some at most. -/
def numbers : ℕ → Bytes → Option (List UInt64)
  | _, [] => some []
  | 0, _ :: _ => none
  | n + 1, b@(_ :: _) => (Varint.get b).bind fun p => (numbers n p.2).map (p.1 :: ·)

/-- The value of an unknown field, which is not kept. -/
def passOver (wire : ℕ) (b : Bytes) : Option (Unit × Bytes) :=
  match wire with
  | 0 => mapRead (fun _ => ()) (Varint.get b)
  | 1 => mapRead (fun _ => ()) (fixed 8 b)
  | 2 => mapRead (fun _ => ()) (chunk b)
  | 5 => mapRead (fun _ => ()) (fixed 4 b)
  | _ => none

section Plain

variable {Msg : Type} {Carrier : Msg → Type} {σ : Type}

/-- The message after a field that holds no message, and what follows the field. -/
def plain (rule : Option (Rule Carrier σ)) (wire : ℕ) (x : σ) (b : Bytes) : Option (σ × Bytes) :=
  match rule with
  | some (.varint set) => mapRead (fun n => set n x) (Varint.get b)
  | some (.double set) => mapRead (fun d => set (UInt64.ofNat (Bytes.getLE d)) x) (fixed 8 b)
  | some (.bytes set) => mapRead (fun p => set p x) (chunk b)
  | some (.repeated get set) =>
    match wire with
    | 0 => mapRead (fun n => set (get x ++ [n]) x) (Varint.get b)
    | 2 => filterRead (fun p => (numbers p.length p).map fun ns => set (get x ++ ns) x) (chunk b)
    | _ => none
  | some (.message ..) => none
  | none => mapRead (fun _ => x) (passOver wire b)

def delimited (rule : Option (Rule Carrier σ)) (wire : ℕ) : Bool :=
  match rule with
  | some (.bytes _) | some (.message ..) => true
  | some (.repeated ..) | none => wire = 2
  | _ => false

end Plain

variable {b body rest : Bytes} {limit size : ℕ} {wire : ℕ} {S : Schema} {m : S.Msg}

/-- Reading the records of a text turns one message into another. -/
inductive Reads (S : Schema) : (m : S.Msg) → S.Carrier m → Bytes → S.Carrier m → Prop where
  | nil {m : S.Msg} (x : S.Carrier m) : Reads S m x [] x
  | plain {m : S.Msg} {x y z : S.Carrier m} {b b₁ rest : Bytes} {f w : ℕ}
      (ht : tag b = some ((f, w), b₁)) (hp : Proto.plain (S.rules m f) w x b₁ = some (y, rest))
      (hrest : Reads S m y rest z) : Reads S m x b z
  | message {m m' : S.Msg} {x z : S.Carrier m} {y : S.Carrier m'} {b b₁ body rest : Bytes}
      {f w : ℕ} {set : S.Carrier m' → S.Carrier m → S.Carrier m}
      (ht : tag b = some ((f, w), b₁)) (hr : S.rules m f = some (.message m' set))
      (hc : chunk b₁ = some (body, rest)) (hbody : Reads S m' (S.init m') body y)
      (hrest : Reads S m (set y x) rest z) : Reads S m x b z

/-- Reading the last records of a text of the given length meets a value whose length, counted
from the start of the text, passes a limit. -/
inductive Overlong (S : Schema) (limit : ℕ) : S.Msg → ℕ → Bytes → Prop where
  | here {m : S.Msg} {size f w : ℕ} {b b₁ rest : Bytes} {n : UInt64}
      (ht : tag b = some ((f, w), b₁)) (hd : delimited (S.rules m f) w = true)
      (hn : Varint.get b₁ = some (n, rest)) (hbig : limit ≤ size - rest.length + n.toNat) :
      Overlong S limit m size b
  | inside {m m' : S.Msg} {size f w : ℕ} {b b₁ body rest : Bytes}
      {set : S.Carrier m' → S.Carrier m → S.Carrier m}
      (ht : tag b = some ((f, w), b₁)) (hr : S.rules m f = some (.message m' set))
      (hc : chunk b₁ = some (body, rest)) (hbody : Overlong S limit m' body.length body) :
      Overlong S limit m size b
  | plain {m : S.Msg} {size f w : ℕ} {b b₁ rest : Bytes} {x y : S.Carrier m}
      (ht : tag b = some ((f, w), b₁)) (hp : Proto.plain (S.rules m f) w x b₁ = some (y, rest))
      (hrest : Overlong S limit m size rest) : Overlong S limit m size b
  | message {m m' : S.Msg} {size f w : ℕ} {b b₁ body rest : Bytes} {y : S.Carrier m'}
      {set : S.Carrier m' → S.Carrier m → S.Carrier m}
      (ht : tag b = some ((f, w), b₁)) (hr : S.rules m f = some (.message m' set))
      (hc : chunk b₁ = some (body, rest)) (hbody : Reads S m' (S.init m') body y)
      (hrest : Overlong S limit m size rest) : Overlong S limit m size b

/-- What is read at the front of a text does not depend on what follows. -/
def Fronted {α : Type} (p : Bytes → Option (α × Bytes)) : Prop :=
  ∀ ⦃b : Bytes⦄ ⦃a : α⦄ ⦃rest : Bytes⦄, p b = some (a, rest) →
    ∃ front, b = front ++ rest ∧ ∀ more, p (front ++ more) = some (a, more)

namespace Fronted

variable {α β : Type} {p : Bytes → Option (α × Bytes)}

theorem suffix {a : α} (hp : Fronted p) (h : p b = some (a, rest)) : rest <:+ b := by
  obtain ⟨front, rfl, -⟩ := hp h
  exact List.suffix_append front rest

theorem append {a : α} (hp : Fronted p) (h : p b = some (a, rest))
    (more : Bytes) : p (b ++ more) = some (a, rest ++ more) := by
  obtain ⟨front, rfl, hf⟩ := hp h
  rw [List.append_assoc, hf]

theorem bind {q : α → Bytes → Option (β × Bytes)} (hp : Fronted p) (hq : ∀ a, Fronted (q a)) :
    Fronted fun b => (p b).bind fun r => q r.1 r.2 := by
  intro b c rest h
  obtain ⟨⟨a, mid⟩, ha, hc⟩ := Option.bind_eq_some_iff.mp h
  obtain ⟨front, rfl, hf⟩ := hp ha
  obtain ⟨front', rfl, hf'⟩ := hq a hc
  refine ⟨front ++ front', (List.append_assoc ..).symm, fun more => ?_⟩
  dsimp only
  rw [List.append_assoc, hf, Option.bind_some]
  exact hf' more

theorem filterRead (hp : Fronted p) (g : α → Option β) :
    Fronted fun b => Proto.filterRead g (p b) := by
  refine @bind _ _ p (fun a rest => (g a).map fun c => (c, rest)) hp fun a b c rest h => ?_
  obtain ⟨c', hc, he⟩ := Option.map_eq_some_iff.mp h
  cases he
  exact ⟨[], rfl, fun more => Option.map_eq_some_iff.mpr ⟨c, hc, rfl⟩⟩

theorem mapRead (hp : Fronted p) (g : α → β) : Fronted fun b => Proto.mapRead g (p b) :=
  hp.filterRead _

end Fronted

theorem fronted_get : Fronted Varint.get := fun _ _ _ h =>
  let ⟨front, hb, _, hf⟩ := Varint.get_eq_some h
  ⟨front, hb, hf⟩

theorem fronted_fixed (n : ℕ) : Fronted (fixed n) := by
  intro b a rest h
  rw [fixed] at h
  split at h
  · rename_i hn
    cases h
    refine ⟨b.take n, (List.take_append_drop n b).symm, fun more => ?_⟩
    have hlen : (b.take n).length = n := List.length_take_of_le hn
    rw [fixed, if_pos (by rw [List.length_append, hlen]; exact Nat.le_add_right ..),
      List.take_left' hlen, List.drop_left' hlen]
  · cases h

theorem fronted_chunk : Fronted chunk := fronted_get.bind fun n => fronted_fixed n.toNat

theorem fronted_tag : Fronted tag := fronted_get.mapRead _

theorem fronted_passOver (wire : ℕ) : Fronted (passOver wire) := by
  unfold passOver
  split
  · exact fronted_get.mapRead _
  · exact (fronted_fixed 8).mapRead _
  · exact fronted_chunk.mapRead _
  · exact (fronted_fixed 4).mapRead _
  · nofun

theorem fronted_plain
    (rule : Option (Rule Carrier σ)) (wire : ℕ) (x : σ) : Fronted (plain rule wire x) := by
  unfold plain
  split
  · exact fronted_get.mapRead _
  · exact (fronted_fixed 8).mapRead _
  · exact fronted_chunk.mapRead _
  · split
    · exact fronted_get.mapRead _
    · exact fronted_chunk.filterRead _
    · nofun
  · nofun
  · exact (fronted_passOver wire).mapRead _

theorem length_of_tag {t : ℕ × ℕ} (h : tag b = some (t, rest)) : rest.length < b.length := by
  obtain ⟨⟨key, mid⟩, hk, he⟩ := Option.bind_eq_some_iff.mp h
  cases he
  exact Varint.length_of_get hk

theorem chunk_eq_some : chunk b = some (body, rest) ↔
    ∃ n, Varint.get b = some (n, body ++ rest) ∧ n.toNat = body.length := by
  constructor
  · intro h
    obtain ⟨⟨n, mid⟩, hn, hf⟩ := Option.bind_eq_some_iff.mp h
    rw [fixed] at hf
    split at hf
    · rename_i hle
      cases hf
      exact ⟨n, by rw [hn, List.take_append_drop], (List.length_take_of_le hle).symm⟩
    · cases hf
  · rintro ⟨n, hn, hlen⟩
    refine Option.bind_eq_some_iff.mpr ⟨_, hn, ?_⟩
    rw [fixed, if_pos (by rw [hlen, List.length_append]; exact Nat.le_add_right ..),
      List.take_left' hlen.symm, List.drop_left' hlen.symm]

theorem plain_other {rule : Option (Rule Carrier σ)} {x y : σ} (x' : σ)
    (h : plain rule wire x b = some (y, rest)) : ∃ y', plain rule wire x' b = some (y', rest) := by
  have hmap : ∀ {α : Type} (g g' : α → σ) (r : Option (α × Bytes)),
      mapRead g r = some (y, rest) → ∃ y', mapRead g' r = some (y', rest) := by
    intro α g g' r hr
    obtain ⟨p, rfl, he⟩ := Option.bind_eq_some_iff.mp hr
    cases he
    exact ⟨_, rfl⟩
  unfold plain at h ⊢
  split at h
  · exact hmap _ _ _ h
  · exact hmap _ _ _ h
  · exact hmap _ _ _ h
  · split at h
    · exact hmap _ _ _ h
    · obtain ⟨p, hp, he⟩ := Option.bind_eq_some_iff.mp h
      obtain ⟨c, hc, he⟩ := Option.map_eq_some_iff.mp he
      obtain ⟨ns, hns, -⟩ := Option.map_eq_some_iff.mp hc
      cases he
      rw [hp]
      dsimp only [filterRead, Option.bind_some]
      rw [hns]
      exact ⟨_, rfl⟩
    · cases h
  · cases h
  · exact hmap _ _ _ h

namespace Reads

variable {S : Schema} {m : S.Msg} {x y z : S.Carrier m} {a b : Bytes}

theorem append (h : Reads S m x a y) (h' : Reads S m y b z) : Reads S m x (a ++ b) z := by
  induction h with
  | nil x => exact h'
  | plain ht hp _ ih =>
    exact .plain (fronted_tag.append ht b) ((fronted_plain ..).append hp b) (ih h')
  | message ht hr hc hbody _ _ ih =>
    exact .message (fronted_tag.append ht b) hr (fronted_chunk.append hc b) hbody (ih h')

theorem of_tag (h : Reads S m x a y) {f w : ℕ} {a₁ : Bytes} (ht : tag a = some ((f, w), a₁)) :
    (∃ x' rest, Proto.plain (S.rules m f) w x a₁ = some (x', rest) ∧ Reads S m x' rest y) ∨
    ∃ m' set body rest v, S.rules m f = some (.message m' set) ∧ chunk a₁ = some (body, rest) ∧
      Reads S m' (S.init m') body v ∧ Reads S m (set v x) rest y := by
  cases h with
  | nil => cases ht
  | plain ht' hp hrest =>
    cases ht.symm.trans ht'
    exact .inl ⟨_, _, hp, hrest⟩
  | message ht' hr hc hbody hrest =>
    cases ht.symm.trans ht'
    exact .inr ⟨_, _, _, _, _, hr, hc, hbody, hrest⟩

theorem eq_of_nil (h : Reads S m x [] y) : x = y := by
  cases h with
  | nil => rfl
  | plain ht | message ht => cases ht

theorem of_append (h : Reads S m x a y) (h' : Reads S m x (a ++ b) z) : Reads S m y b z := by
  induction h generalizing b with
  | nil x => exact h'
  | plain ht hp _ ih =>
    rcases h'.of_tag (fronted_tag.append ht b) with ⟨_, _, hp', hrest⟩ | ⟨_, _, _, _, _, hr, _⟩
    · cases ((fronted_plain ..).append hp b).symm.trans hp'
      exact ih hrest
    · rw [hr] at hp
      cases hp
  | @message _ _ _ _ _ _ _ body _ _ _ _ ht hr hc _ _ ihbody ih =>
    rcases h'.of_tag (fronted_tag.append ht b) with
      ⟨_, _, hp', _⟩ | ⟨_, _, _, _, v, hr', hc', hbody', hrest⟩
    · rw [hr] at hp'
      cases hp'
    · cases hr.symm.trans hr'
      cases (fronted_chunk.append hc b).symm.trans hc'
      rw [← List.append_nil body] at hbody'
      cases (ihbody hbody').eq_of_nil
      exact ih hrest

theorem unique (h : Reads S m x a y) (h' : Reads S m x a z) : y = z := by
  rw [← List.append_nil a] at h'
  exact (h.of_append h').eq_of_nil

end Reads

theorem length_of_chunk (h : chunk b = some (body, rest)) :
    body.length + rest.length < b.length := by
  obtain ⟨n, hn, -⟩ := chunk_eq_some.mp h
  rw [← List.length_append]
  exact Varint.length_of_get hn

theorem chunk_of_plain {rule : Option (Rule Carrier σ)} {x y : σ}
    (hd : delimited rule wire = true) (h : plain rule wire x b = some (y, rest)) :
    ∃ body, chunk b = some (body, rest) := by
  have hread : ∀ {α β : Type} (g : α → Option β) (r : Option (α × Bytes)) (c : β),
      filterRead g r = some (c, rest) → ∃ a, r = some (a, rest) := by
    intro α β g r c hr
    obtain ⟨⟨a, mid⟩, rfl, he⟩ := Option.bind_eq_some_iff.mp hr
    obtain ⟨c', -, he⟩ := Option.map_eq_some_iff.mp he
    cases he
    exact ⟨a, rfl⟩
  unfold plain at h
  split at h
  · cases hd
  · cases hd
  · exact hread _ _ _ h
  · obtain rfl : wire = 2 := by simpa [delimited] using hd
    exact hread _ _ _ h
  · cases h
  · obtain rfl : wire = 2 := by simpa [delimited] using hd
    obtain ⟨_, h⟩ := hread _ _ _ h
    exact hread (fun _ => some ()) _ _ h

theorem not_beyond_of_chunk {b body rest rest' : Bytes} {n : UInt64}
    (hc : chunk b = some (body, rest)) (hn : Varint.get b = some (n, rest')) (hb : b.length ≤ size)
    (hlimit : size < limit) : ¬ limit ≤ size - rest'.length + n.toNat := by
  obtain ⟨n', hn', hlen⟩ := chunk_eq_some.mp hc
  have hle := Varint.length_of_get hn
  cases hn.symm.trans hn'
  rw [hlen]
  rw [List.length_append] at hle ⊢
  omega

/-- Where a length passes the limit: at the first field, inside it, or after it. -/
theorem Overlong.of_tag {b b₁ : Bytes} {limit size f w : ℕ}
    (h : Overlong S limit m size b) (ht : tag b = some ((f, w), b₁)) :
    (delimited (S.rules m f) w = true ∧
      ∃ n rest, Varint.get b₁ = some (n, rest) ∧ limit ≤ size - rest.length + n.toNat) ∨
    (∃ m' set body rest, S.rules m f = some (.message m' set) ∧ chunk b₁ = some (body, rest) ∧
      (Overlong S limit m' body.length body ∨
        (∃ y, Reads S m' (S.init m') body y) ∧ Overlong S limit m size rest)) ∨
    ∃ x y rest, Proto.plain (S.rules m f) w x b₁ = some (y, rest) ∧
      Overlong S limit m size rest := by
  cases h with
  | here ht' hd hn hbig =>
    cases ht.symm.trans ht'
    exact .inl ⟨hd, _, _, hn, hbig⟩
  | inside ht' hr hc ho =>
    cases ht.symm.trans ht'
    exact .inr (.inl ⟨_, _, _, _, hr, hc, .inl ho⟩)
  | plain ht' hp ho =>
    cases ht.symm.trans ht'
    exact .inr (.inr ⟨_, _, _, hp, ho⟩)
  | message ht' hr hc hy ho =>
    cases ht.symm.trans ht'
    exact .inr (.inl ⟨_, _, _, _, hr, hc, .inr ⟨⟨_, hy⟩, ho⟩⟩)

/-- Bytes that all belong to records hold no length beyond their own. -/
theorem Reads.not_overlong {x y : S.Carrier m} {b : Bytes}
    (h : Reads S m x b y) (hsize : b.length ≤ size) (hlimit : size < limit) :
    ¬ Overlong S limit m size b := by
  induction h generalizing size with
  | nil => rintro (⟨ht, _⟩ | ⟨ht, _⟩ | ⟨ht, _⟩ | ⟨ht, _⟩) <;> cases ht
  | @plain _ x _ _ _ _ _ _ _ ht hp _ ih =>
    have htag := length_of_tag ht
    have hrest := ((fronted_plain ..).suffix hp).length_le
    intro ho
    rcases ho.of_tag ht with ⟨hd, n, rest, hn, hbig⟩ | ⟨_, _, _, _, hr, _⟩ | ⟨_, _, _, hp', ho⟩
    · obtain ⟨body, hc⟩ := chunk_of_plain hd hp
      exact not_beyond_of_chunk hc hn (by omega) hlimit hbig
    · rw [hr] at hp
      cases hp
    · obtain ⟨_, hp'⟩ := plain_other x hp'
      cases hp.symm.trans hp'
      exact ih (by omega) hlimit ho
  | message ht hr hc _ _ ihbody ih =>
    have htag := length_of_tag ht
    have hrest := length_of_chunk hc
    intro ho
    rcases ho.of_tag ht with
      ⟨_, n, rest, hn, hbig⟩ | ⟨_, _, _, _, hr', hc', ho | ⟨_, ho⟩⟩ | ⟨_, _, _, hp, _⟩
    · exact not_beyond_of_chunk hc hn (by omega) hlimit hbig
    · cases hr.symm.trans hr'
      cases hc.symm.trans hc'
      exact ihbody (Nat.le_refl _) (by omega) ho
    · cases hc.symm.trans hc'
      exact ih (by omega) hlimit ho
    · rw [hr] at hp
      cases hp

end VecDb.Proto
