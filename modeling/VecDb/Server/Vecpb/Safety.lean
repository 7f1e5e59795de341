import VecDb.Server.Vecpb.Wire

/-! # When a decoder ends

A reader inside its buffer reads what stands there, as long as no length passes the largest
machine integer: it comes to the end of the buffer or refuses it. With such a length it
panics, turns back or does not end.
-/

namespace VecDb.Vecpb

open Proto Int

/-- The first position that a machine integer cannot hold. -/
def maxInt : ℕ := 2 ^ 63

/-- A reader before the last bytes of its buffer. -/
def mark (data b : Bytes) (g : Bool) : Reader := ⟨data, (data.length : ℤ) - b.length, g⟩

/-- A read ends with an error, and no position turned back. -/
def Refuses {α : Type} (res : EStateM.Result Fault Reader α) (g : Bool) : Prop :=
  ∃ e r, res = .error (.refused e) r ∧ r.rewound = g

variable {α β : Type} {data b rest : Bytes} {g : Bool} {a : Read α} {f : α → Read β} {r : Reader}
  {p : Bytes} {r s : Reader} {pos n : ℕ} {c : UInt8}

theorem bind_of_ok {x : α} (h : a r = .ok x s) : (a >>= f) r = f x s := by
  change EStateM.bind a f r = _
  rw [EStateM.bind, h]

theorem bind_of_error {e : Fault} (h : a r = .error e s) : (a >>= f) r = .error e s := by
  change EStateM.bind a f r = _
  rw [EStateM.bind, h]

theorem Refuses.bind (h : Refuses (a r) g) : Refuses ((a >>= f) r) g := by
  obtain ⟨e, s, hs, hg⟩ := h
  exact ⟨e, s, bind_of_error hs, hg⟩

theorem moveTo_mark (b' : Bytes) {pos : ℤ} (hle : b'.length ≤ b.length)
    (hpos : pos = (data.length : ℤ) - b'.length) : (mark data b g).moveTo pos = mark data b' g := by
  have hback : ¬ pos < (mark data b g).pos := by
    rw [hpos]
    exact not_lt.mpr (sub_le_sub_left (ofNat_le.mpr hle) _)
  rw [Reader.moveTo, decide_eq_false hback, Bool.or_false, hpos]
  rfl

theorem pos_mark {front : Bytes} : (mark (front ++ b) b g).pos = front.length := by
  simp [mark]

theorem readByte_nil : Refuses (readByte (mark data [] g)) g := by
  have hdone : (mark data [] g).done = true := by simp [mark, Reader.done]
  rw [readByte, if_pos hdone]
  exact ⟨_, _, rfl, rfl⟩

theorem done_cons (hs : c :: b <:+ data) : (mark data (c :: b) g).done = false := by
  obtain ⟨front, rfl⟩ := hs
  rw [Reader.done, pos_mark]
  simp [mark]

theorem readByte_cons (hs : c :: b <:+ data) :
    readByte (mark data (c :: b) g) = .ok c (mark data b g) := by
  have hdone := @done_cons data b g c hs
  obtain ⟨front, rfl⟩ := hs
  have hbyte : (front ++ c :: b).getD front.length 0 = c := by simp
  rw [readByte, hdone, if_neg Bool.false_ne_true, pos_mark,
    if_neg (not_lt.mpr (natCast_nonneg _)), toNat_natCast]
  rw [moveTo_mark b (by simp) (by simp; omega)]
  exact congrArg (EStateM.Result.ok · _) hbyte

/-- A read gives what stands at the front of a text, or refuses it where nothing does. -/
def Agrees (data : Bytes) (g : Bool) :
    Option (α × Bytes) → EStateM.Result Fault Reader α → Prop
  | some (x, rest), res => res = .ok x (mark data rest g)
  | none, res => Refuses res g

theorem Agrees.bind {p : Option (α × Bytes)}
    {q : α → Bytes → Option (β × Bytes)} (hp : Agrees data g p (a r))
    (hq : ∀ x rest, p = some (x, rest) → Agrees data g (q x rest) (f x (mark data rest g))) :
    Agrees data g (p.bind fun s => q s.1 s.2) ((a >>= f) r) := by
  rcases p with _ | ⟨x, rest⟩
  · exact Refuses.bind hp
  · rw [bind_of_ok hp]
    exact hq x rest rfl

theorem Agrees.map {f : α → β} {p : Option (α × Bytes)} (hp : Agrees data g p (a r)) :
    Agrees data g (mapRead f p) ((a >>= fun x => pure (f x)) r) :=
  hp.bind (q := fun x rest => some (f x, rest)) fun _ _ _ => rfl

theorem ofNat_mod (n : ℕ) : UInt64.ofNat (n % 2 ^ 64) = UInt64.ofNat n := by
  apply UInt64.toNat_inj.mp
  rw [UInt64.toNat_ofNat', UInt64.toNat_ofNat', Nat.mod_mod]

theorem readGroups_mark {n x : ℕ} (hn : n ≤ 10) (hs : b <:+ data) :
    (∃ v rest, Varint.take n b = some (v, rest) ∧ readGroups n x (mark data b g) =
      .ok (UInt64.ofNat (x + v * 2 ^ (7 * (10 - n)))) (mark data rest g)) ∨
    Varint.take n b = none ∧ Refuses (readGroups n x (mark data b g)) g := by
  induction n generalizing b x with
  | zero =>
    refine .inr ⟨rfl, ?_⟩
    cases b with
    | nil => exact readByte_nil.bind
    | cons c b =>
      rw [readGroups, bind_of_ok (readByte_cons hs)]
      exact ⟨_, _, rfl, rfl⟩
  | succ n ih =>
    cases b with
    | nil => exact .inr ⟨rfl, readByte_nil.bind⟩
    | cons c b =>
      have hshift : 7 * (9 - n) = 7 * (10 - (n + 1)) := by omega
      have hb : b <:+ data := (List.suffix_cons c b).trans hs
      rw [readGroups, bind_of_ok (readByte_cons hs), Varint.take]
      by_cases hc : c < 0x80
      · have hlow : c.toNat % 0x80 = c.toNat :=
          Nat.mod_eq_of_lt (by simpa [UInt8.lt_iff_toNat_lt] using hc)
        refine .inl ⟨c.toNat, b, if_pos hc, ?_⟩
        rw [if_pos hc, hlow, ofNat_mod, hshift]
        rfl
      · dsimp only
        rw [if_neg hc, if_neg hc]
        rcases @ih b ((x + c.toNat % 0x80 * 2 ^ (7 * (9 - n))) % 2 ^ 64) (by omega) hb with
          ⟨v, rest, hv, hrun⟩ | ⟨hv, hrun⟩
        · refine .inl ⟨c.toNat % 0x80 + 0x80 * v, rest, by rw [hv]; rfl, ?_⟩
          have hpow : 2 ^ (7 * (10 - n)) = 0x80 * 2 ^ (7 * (9 - n)) := by
            rw [show 7 * (10 - n) = 7 * (9 - n) + 7 by omega, pow_add]
            ring
          have hsum : x + c.toNat % 0x80 * 2 ^ (7 * (9 - n)) + v * 2 ^ (7 * (10 - n)) =
              x + (c.toNat % 0x80 + 0x80 * v) * 2 ^ (7 * (9 - n)) := by
            rw [hpow]
            ring
          rw [hrun, ← ofNat_mod, Nat.mod_add_mod, ofNat_mod, hsum, hshift]
        · exact .inr ⟨by rw [hv]; rfl, hrun⟩

theorem readVarint_mark (hs : b <:+ data) :
    Agrees data g (Varint.get b) (readVarint (mark data b g)) := by
  rw [Varint.get]
  rcases @readGroups_mark data b g 10 0 (Nat.le_refl _) hs with ⟨v, rest, hv, hrun⟩ | ⟨hv, hrun⟩
  · rw [hv, readVarint, hrun]
    simp [Agrees]
  · rw [hv]
    exact hrun

theorem readTag_mark (hs : b <:+ data) : Agrees data g (tag b) (readTag (mark data b g)) :=
  (readVarint_mark hs).map

theorem wrap_eq {x : ℤ} (h0 : 0 ≤ x) (hx : x < maxInt) : wrap x = x := by
  rw [maxInt] at hx
  rw [wrap, bmod_def]
  split <;> omega

theorem wrap_add_lt (hpos : pos < maxInt) (hn : n < 2 ^ 64) (h : maxInt ≤ pos + n) :
    wrap (pos + wrap n) < pos := by
  rw [maxInt] at hpos h
  rw [wrap, wrap, bmod_def, bmod_def]
  split <;> split <;> omega

theorem wrap_add_eq (h : pos + n < maxInt) : wrap (pos + wrap n) = (pos + n : ℕ) := by
  have hn : wrap n = n := wrap_eq (natCast_nonneg n) (by omega)
  rw [hn]
  exact wrap_eq (by omega) (by omega)

theorem readFixed_mark {n : ℕ} (hsize : data.length + 8 < maxInt) (hn : n ≤ 8) (hs : b <:+ data) :
    Agrees data g (fixed n b) (readFixed n (mark data b g)) := by
  obtain ⟨front, rfl⟩ := hs
  have hwrap : wrap ((front.length : ℤ) + n) = (front.length + n : ℕ) := by
    rw [List.length_append] at hsize
    exact wrap_eq (by omega) (by omega)
  rw [readFixed, pos_mark, hwrap, fixed]
  by_cases hle : n ≤ b.length
  · rw [if_pos hle, if_neg, if_neg (not_lt.mpr (natCast_nonneg _)), toNat_natCast,
      moveTo_mark (b.drop n) (by simp)]
    · simp [Agrees, mark]
    · simp
      omega
    · simp [mark]
      omega
  · rw [if_neg hle, if_pos]
    · exact ⟨_, _, rfl, rfl⟩
    · simp [mark]
      omega

/-- No length at the front of a text passes the largest machine integer. -/
def Short (data b : Bytes) : Prop :=
  ∀ ⦃n : UInt64⦄ ⦃rest : Bytes⦄, Varint.get b = some (n, rest) →
    data.length - rest.length + n.toNat < maxInt

theorem readBytes_mark (hs : b <:+ data) (hshort : Short data b) :
    Agrees data g (chunk b) (readBytes (mark data b g)) := by
  refine (readVarint_mark hs).bind (q := fun n rest => fixed n.toNat rest) fun n rest hn => ?_
  have hlt := hshort hn
  obtain ⟨front, rfl⟩ := (fronted_get.suffix hn).trans hs
  have hfront : (front ++ rest).length - rest.length = front.length := by simp
  rw [hfront] at hlt
  rw [pos_mark, wrap_add_eq hlt, fixed]
  by_cases hle : n.toNat ≤ rest.length
  · rw [if_pos hle, if_neg, if_neg (by omega), toNat_natCast, toNat_natCast,
      moveTo_mark (rest.drop n.toNat) (by simp)]
    · simp [Agrees, mark, List.take_append]
    · simp
      omega
    · simp [mark]
      omega
  · rw [if_neg hle, if_pos]
    · exact ⟨_, _, rfl, rfl⟩
    · simp [mark]
      omega

theorem skipBytes_mark {n : ℤ} {k : ℕ}
    (hwrap : wrap ((data.length : ℤ) - b.length + n) = (data.length : ℤ) - b.length + k) :
    Agrees data g (mapRead (fun _ => ()) (fixed k b)) (skipBytes n (mark data b g)) := by
  have hpos : (mark data b g).pos = (data.length : ℤ) - b.length := rfl
  rw [skipBytes, hpos, hwrap, fixed]
  by_cases hle : k ≤ b.length
  · rw [if_pos hle, if_neg, moveTo_mark (b.drop k) (by simp)]
    · rfl
    · simp
      omega
    · simp [mark]
      omega
  · rw [if_neg hle, if_pos]
    · exact ⟨_, _, rfl, rfl⟩
    · simp [mark]
      omega

theorem skip_mark {wire : ℕ} (hsize : data.length + 8 < maxInt) (hs : b <:+ data)
    (hshort : wire = 2 → Short data b) :
    Agrees data g (passOver wire b) (skip wire (mark data b g)) := by
  have hle : b.length ≤ data.length := hs.length_le
  match wire with
  | 0 => exact (readVarint_mark hs).map
  | 1 => exact skipBytes_mark (wrap_eq (by omega) (by omega))
  | 2 =>
    have hchunk : passOver 2 b =
        (Varint.get b).bind fun s => mapRead (fun _ => ()) (fixed s.1.toNat s.2) := by
      rw [passOver, chunk]
      cases Varint.get b <;> rfl
    rw [hchunk]
    refine (readVarint_mark hs).bind
      (q := fun n rest => mapRead (fun _ => ()) (fixed n.toNat rest)) fun n rest hn => ?_
    have hrest := (fronted_get.suffix hn).length_le
    have hlt := hshort rfl hn
    have hpos : (data.length : ℤ) - rest.length = (data.length - rest.length : ℕ) := by omega
    apply skipBytes_mark
    rw [hpos]
    exact wrap_add_eq hlt
  | 5 => exact skipBytes_mark (wrap_eq (by omega) (by omega))
  | 3 | 4 | _ + 6 => exact ⟨_, _, rfl, rfl⟩

/-- A read has not ended within its rounds. -/
def Stuck (res : EStateM.Result Fault Reader α) : Prop := ∃ r, res = .error .stuck r

theorem Stuck.bind (h : Stuck (a r)) : Stuck ((a >>= f) r) := by
  obtain ⟨s, hs⟩ := h
  exact ⟨s, bind_of_error hs⟩

theorem bind_get {f : Reader → Read β} : ((get : Read Reader) >>= f) r = f r r := rfl

theorem done_nil : (mark data [] g).done = true := by simp [mark, Reader.done]

theorem readPacked_mark {n k : ℕ} {xs : List UInt64} (hs : b <:+ data) (hk : b.length ≤ k) :
    Stuck (readPacked n xs (mark data b g)) ∧ n ≤ b.length ∨
    Agrees data g ((numbers k b).map fun ns => (xs ++ ns, [])) (readPacked n xs (mark data b g)) := by
  induction n generalizing b k xs with
  | zero => exact .inl ⟨⟨_, rfl⟩, Nat.zero_le _⟩
  | succ n ih =>
    rw [readPacked, bind_get]
    cases b with
    | nil =>
      right
      rw [done_nil, if_pos rfl, numbers, Option.map_some, List.append_nil]
      rfl
    | cons c b =>
      obtain ⟨k, rfl⟩ : ∃ k', k = k' + 1 := ⟨k - 1, by simp at hk; omega⟩
      rw [done_cons hs, if_neg Bool.false_ne_true, numbers]
      have hget := @readVarint_mark data (c :: b) g hs
      rcases hx : Varint.get (c :: b) with _ | ⟨x, rest⟩ <;> rw [hx] at hget
      · exact .inr (Refuses.bind hget)
      · have hlen := Varint.length_of_get hx
        rw [bind_of_ok hget, Option.bind_some]
        rcases @ih rest k (xs ++ [x]) ((fronted_get.suffix hx).trans hs) (by simp at hk hlen; omega)
          with ⟨hst, hn⟩ | hag
        · exact .inl ⟨hst, by omega⟩
        · right
          simpa [Option.map_map, Function.comp_def] using hag

theorem within_eq : within p a (mark data b g) =
      match a (mark p p g) with
      | .ok x s => .ok x ⟨data, (data.length : ℤ) - b.length, s.rewound⟩
      | .error e s => .error e ⟨data, (data.length : ℤ) - b.length, s.rewound⟩ := by
  have hstart : (⟨p, 0, g⟩ : Reader) = mark p p g := by simp [mark]
  rw [within]
  change (match a ⟨p, 0, g⟩ with | .ok x s => _ | .error e s => _) = _
  rw [hstart]
  rfl

theorem within_of_ok {x : α} (h : a (mark p p g) = .ok x (mark p [] g)) :
    within p a (mark data b g) = .ok x (mark data b g) := by
  rw [within_eq, h]
  rfl

theorem Refuses.within (h : Refuses (a (mark p p g)) g) :
    Refuses (within p a (mark data b g)) g := by
  obtain ⟨e, r, hr, hg⟩ := h
  rw [within_eq, hr]
  exact ⟨e, _, rfl, hg⟩

theorem Stuck.within (h : Stuck (a (mark p p g))) : Stuck (within p a (mark data b g)) := by
  obtain ⟨r, hr⟩ := h
  rw [within_eq, hr]
  exact ⟨_, rfl⟩

variable {S : Schema} {σ : Type} {rounds wire : ℕ} {sub : (m : S.Msg) → Read (S.Carrier m)}
  {rule : Option (Rule S.Carrier σ)} {x : σ}

theorem readRepeatedUint64_mark {xs : List UInt64} (hs : b <:+ data)
    (hshort : wire = 2 → Short data b) :
    Stuck (readRepeatedUint64 rounds wire xs (mark data b g)) ∧ rounds ≤ data.length ∨
    Agrees data g (match wire with
      | 0 => mapRead (fun n => xs ++ [n]) (Varint.get b)
      | 2 => filterRead (fun p => (numbers p.length p).map fun ns => xs ++ ns) (chunk b)
      | _ => none) (readRepeatedUint64 rounds wire xs (mark data b g)) := by
  match wire with
  | 0 => exact .inr (readVarint_mark hs).map
  | 2 =>
    have hread := @readBytes_mark data b g hs (hshort rfl)
    rcases hc : chunk b with _ | ⟨p, rest⟩ <;> rw [hc] at hread
    · exact .inr (Refuses.bind hread)
    · have hp := length_of_chunk hc
      have hle := hs.length_le
      have hbind : readRepeatedUint64 rounds 2 xs (mark data b g) =
          within p (readPacked rounds xs) (mark data rest g) := bind_of_ok hread
      rw [hbind]
      rcases @readPacked_mark p p g rounds p.length xs List.suffix_rfl (Nat.le_refl _) with
        ⟨hst, hn⟩ | hag
      · exact .inl ⟨hst.within, by omega⟩
      · right
        dsimp only [filterRead, Option.bind_some]
        rcases hns : numbers p.length p with _ | ns <;> rw [hns] at hag
        · exact Refuses.within hag
        · exact within_of_ok hag
  | 1 | _ + 3 => exact .inr ⟨_, _, rfl, rfl⟩

/-- A read ends only after a position has turned back, or panics, or has not ended. -/
def Spoilt (res : EStateM.Result Fault Reader α) : Prop :=
  match res with
  | .ok _ r | .error (.refused _) r => r.rewound = true
  | .error .panic _ | .error .stuck _ => True

/-- Once a position has turned back, that stays so. -/
def Sticky (a : Read α) : Prop := ∀ r : Reader, r.rewound = true → Spoilt (a r)

theorem Spoilt.bind (h : Spoilt (a r)) (hf : ∀ x, Sticky (f x)) : Spoilt ((a >>= f) r) := by
  rcases ha : a r with ⟨x, s⟩ | ⟨e, s⟩ <;> rw [ha] at h
  · rw [bind_of_ok ha]
    exact hf x s h
  · rw [bind_of_error ha]
    cases e <;> exact h

theorem Spoilt.within (h : Spoilt (a (mark p p g))) : Spoilt (within p a (mark data b g)) := by
  rw [within_eq]
  rcases ha : a (mark p p g) with ⟨x, s⟩ | ⟨e, s⟩ <;> rw [ha] at h
  · exact h
  · cases e <;> exact h

namespace Sticky

variable {a : Read α} {f : α → Read β}

theorem bind (ha : Sticky a) (hf : ∀ x, Sticky (f x)) : Sticky (a >>= f) := fun r hr =>
  (ha r hr).bind hf

theorem pure (x : α) : Sticky (Pure.pure x : Read α) := fun _ hr => hr

theorem refuse (e : WireError) : Sticky (refuse e : Read α) := fun _ hr => hr

theorem moveTo {pos : ℤ} (hr : r.rewound = true) : (r.moveTo pos).rewound = true := by
  rw [Reader.moveTo]
  exact (congrArg (· || _) hr).trans (Bool.true_or _)

theorem of_move {c c' : Prop} [Decidable c] [Decidable c'] {x : α} {e : WireError} {pos : ℤ}
    (hr : r.rewound = true) : Spoilt (if c then .error (.refused e) r else if c' then
      .error .panic r else .ok x (r.moveTo pos)) := by
  split
  · exact hr
  · split
    · trivial
    · exact moveTo hr

theorem readByte : Sticky readByte := fun _ => of_move

theorem readGroups (n x : ℕ) : Sticky (readGroups n x) := by
  induction n generalizing x with
  | zero => exact readByte.bind fun _ => refuse _
  | succ n ih =>
    refine readByte.bind fun b => ?_
    split
    · exact pure _
    · exact ih _

theorem readVarint : Sticky readVarint := readGroups 10 0

theorem readFixed (n : ℕ) : Sticky (readFixed n) := fun _ => of_move

theorem readBytes : Sticky readBytes := readVarint.bind fun _ _ => of_move

theorem skipBytes (n : ℤ) : Sticky (skipBytes n) := by
  intro r hr
  unfold Vecpb.skipBytes
  split
  · exact hr
  · exact moveTo hr

theorem skip (wire : ℕ) : Sticky (skip wire) := by
  match wire with
  | 0 => exact readVarint.bind fun _ => pure _
  | 1 => exact skipBytes 8
  | 2 => exact readVarint.bind fun _ => skipBytes _
  | 5 => exact skipBytes 4
  | 3 | 4 | _ + 6 => exact refuse _

theorem within (p : Bytes) (ha : Sticky a) : Sticky (within p a) := by
  intro r hr
  have h := ha ⟨p, 0, r.rewound⟩ hr
  rw [Vecpb.within]
  rcases ha : a ⟨p, 0, r.rewound⟩ with ⟨x, s⟩ | ⟨e, s⟩ <;> rw [ha] at h
  · exact h
  · cases e <;> exact h

theorem ite {c : Prop} [Decidable c] {a' : Read α} (ha : Sticky a) (ha' : Sticky a') :
    Sticky (if c then a else a') := by
  split <;> assumption

theorem get_bind {f : Reader → Read β} (hf : ∀ r, Sticky (f r)) :
    Sticky ((get : Read Reader) >>= f) := fun r hr => hf r r hr

theorem readPacked (n : ℕ) (xs : List UInt64) : Sticky (readPacked n xs) := by
  induction n generalizing xs with
  | zero => exact fun _ _ => trivial
  | succ n ih => exact get_bind fun _ => (pure _).ite (readVarint.bind fun _ => ih _)

theorem readRepeatedUint64 (rounds wire : ℕ) (xs : List UInt64) :
    Sticky (readRepeatedUint64 rounds wire xs) := by
  match wire with
  | 0 => exact readVarint.bind fun _ => pure _
  | 2 => exact readBytes.bind fun p => (readPacked rounds xs).within p
  | 1 | _ + 3 => exact refuse _

variable {S : Schema} {sub : (m : S.Msg) → Read (S.Carrier m)}

theorem field {σ : Type} {rounds wire : ℕ} {rule : Option (Rule S.Carrier σ)} {x : σ}
    (hsub : ∀ m, Sticky (sub m)) : Sticky (field rounds sub rule wire x) := by
  match rule with
  | some (.varint set) => exact readVarint.bind fun _ => pure _
  | some (.double set) =>
    exact ((readFixed 8).bind fun _ => pure _).bind fun _ => pure _
  | some (.bytes set) => exact readBytes.bind fun _ => pure _
  | some (.repeated get set) =>
    exact (readRepeatedUint64 rounds wire (get x)).bind fun _ => pure _
  | some (.message m set) =>
    exact readBytes.bind fun p => ((hsub m).within p).bind fun _ => pure _
  | none => exact (skip wire).bind fun _ => pure _

theorem records {rounds n : ℕ} {m : S.Msg} {x : S.Carrier m} (hsub : ∀ m, Sticky (sub m)) :
    Sticky (records rounds sub m n x) := by
  induction n generalizing x with
  | zero => exact fun _ _ => trivial
  | succ n ih =>
    refine get_bind fun _ => (pure _).ite ?_
    exact (readVarint.bind fun _ => pure _).bind fun _ => (field hsub).bind fun _ => ih

theorem unmarshal (n : ℕ) (m : S.Msg) : Sticky (unmarshal S n m) := by
  induction n generalizing m with
  | zero => exact fun _ _ => trivial
  | succ n ih => exact records ih

end Sticky

theorem field_plain (hsize : data.length + 8 < maxInt) (hs : b <:+ data)
    (hshort : delimited rule wire = true → Short data b)
    (hrule : ∀ m set, rule ≠ some (.message m set)) :
    Stuck (field rounds sub rule wire x (mark data b g)) ∧ rounds ≤ data.length ∨
    Agrees data g (plain rule wire x b) (field rounds sub rule wire x (mark data b g)) := by
  rcases rule with _ | set | set | set | ⟨get, set⟩ | ⟨m, set⟩
  case some.varint => exact .inr (readVarint_mark hs).map
  case some.double =>
    have hread : Agrees data g (mapRead (fun d => UInt64.ofNat (Bytes.getLE d)) (fixed 8 b))
        (readDouble (mark data b g)) := (readFixed_mark hsize (Nat.le_refl _) hs).map
    have hmap := hread.map (f := fun d => set d x)
    rw [mapRead_mapRead] at hmap
    exact .inr hmap
  case some.bytes => exact .inr (readBytes_mark hs (hshort rfl)).map
  case some.repeated =>
    have hshort' : wire = 2 → Short data b := fun hw => hshort (by simpa [delimited] using hw)
    rcases @readRepeatedUint64_mark data b g rounds wire (get x) hs hshort' with ⟨hst, hn⟩ | hag
    · exact .inl ⟨hst.bind, hn⟩
    · right
      rcases wire with _ | _ | _ | wire
      · have hmap : Agrees data g (mapRead (fun ns => set ns x) (mapRead _ (Varint.get b))) _ :=
          hag.map
        rw [mapRead_mapRead] at hmap
        exact hmap
      · exact Refuses.bind hag
      · have hmap : Agrees data g (mapRead (fun ns => set ns x) (filterRead _ (chunk b))) _ :=
          hag.map
        rw [mapRead_filterRead] at hmap
        simp only [Option.map_map] at hmap
        exact hmap
      · exact Refuses.bind hag
  case some.message => exact absurd rfl (hrule m set)
  case none =>
    have hshort' : wire = 2 → Short data b := fun hw => hshort (by simpa [delimited] using hw)
    exact .inr (skip_mark hsize hs hshort').map

/-- How the rest of a buffer is read: to its end, as far as an error, not within the rounds, or as
far as an overlong length. -/
inductive Outcome (S : Schema) (m : S.Msg) (data : Bytes) (g : Bool) (enough : Prop)
    (x : S.Carrier m) (b : Bytes) (res : EStateM.Result Fault Reader (S.Carrier m)) : Prop where
  | reads (y : S.Carrier m) (h : Reads S m x b y) (hres : res = .ok y (mark data [] g))
  | refuses (h : ∀ y, ¬ Reads S m x b y) (hover : ¬ Overlong S maxInt m data.length b)
      (hres : Refuses res g)
  | stuck (h : ¬ enough) (hres : Stuck res)
  | overlong (h : Overlong S maxInt m data.length b) (hres : Spoilt res)

/-- How one record of a buffer is read: what is left then is read as the whole is. -/
inductive Turn (S : Schema) (m : S.Msg) (data : Bytes) (g : Bool) (enough : Prop)
    (x : S.Carrier m) (b : Bytes) (res : EStateM.Result Fault Reader (S.Carrier m)) : Prop where
  | reads (y : S.Carrier m) (rest : Bytes) (h : ∀ z, Reads S m y rest z ↔ Reads S m x b z)
      (hover : Overlong S maxInt m data.length rest ↔ Overlong S maxInt m data.length b)
      (hrest : rest <:+ data) (hlen : rest.length < b.length)
      (hres : res = .ok y (mark data rest g))
  | refuses (h : ∀ z, ¬ Reads S m x b z) (hover : ¬ Overlong S maxInt m data.length b)
      (hres : Refuses res g)
  | stuck (h : ¬ enough) (hres : Stuck res)
  | overlong (h : Overlong S maxInt m data.length b) (hres : Spoilt res)

theorem Turn.mono {m : S.Msg} {x : S.Carrier m} {res : EStateM.Result Fault Reader (S.Carrier m)}
    {enough enough' : Prop} (h : Turn S m data g enough x b res) (hm : enough' → enough) :
    Turn S m data g enough' x b res := by
  cases h with
  | reads y rest h hover hrest hlen hres => exact .reads y rest h hover hrest hlen hres
  | refuses h hover hres => exact .refuses h hover hres
  | stuck h hres => exact .stuck (fun he => h (hm he)) hres
  | overlong h hres => exact .overlong h hres

section Beyond

variable {n : UInt64} (hs : b <:+ data) (hsize : data.length < maxInt)
  (hn : Varint.get b = some (n, rest)) (hbig : maxInt ≤ data.length - rest.length + n.toNat)
include hs hsize hn hbig

theorem stop_lt : wrap ((data.length : ℤ) - rest.length + wrap n.toNat) <
    (data.length : ℤ) - rest.length := by
  have hrest := ((fronted_get.suffix hn).trans hs).length_le
  have hpos : (data.length : ℤ) - rest.length = (data.length - rest.length : ℕ) := by omega
  rw [hpos]
  exact wrap_add_lt (by omega) n.toNat_lt hbig

theorem readBytes_beyond : ∃ r, readBytes (mark data b g) = .error .panic r := by
  have hstop := stop_lt hs hsize hn hbig
  have hread := @readVarint_mark data b g hs
  rw [hn] at hread
  refine ⟨mark data rest g, (bind_of_ok hread).trans ?_⟩
  rw [if_neg, if_pos]
  · exact .inr hstop
  · change ¬ (data.length : ℤ) < wrap ((data.length : ℤ) - rest.length + wrap n.toNat)
    omega

theorem skip_beyond : ∃ r, skip 2 (mark data b g) = .ok () r ∧ r.rewound = true := by
  have hstop := stop_lt hs hsize hn hbig
  have hread := @readVarint_mark data b g hs
  rw [hn] at hread
  have hskip : skip 2 (mark data b g) = skipBytes (wrap n.toNat) (mark data rest g) :=
    bind_of_ok hread
  have hback : (mark data rest g).pos > wrap ((mark data rest g).pos + wrap n.toNat) := hstop
  rw [hskip, skipBytes, if_neg]
  · refine ⟨_, rfl, ?_⟩
    rw [Reader.moveTo, decide_eq_true hback]
    exact Bool.or_true _
  · change ¬ (data.length : ℤ) < wrap ((data.length : ℤ) - rest.length + wrap n.toNat)
    omega

theorem field_beyond (hd : delimited rule wire = true) :
    Spoilt (field rounds sub rule wire x (mark data b g)) := by
  obtain ⟨r, hr⟩ := @readBytes_beyond data b rest g n hs hsize hn hbig
  match rule with
  | some (.varint _) | some (.double _) => cases hd
  | some (.bytes set) | some (.message m set) =>
    rw [field, bind_of_error hr]
    trivial
  | some (.repeated get set) =>
    obtain rfl : wire = 2 := by simpa [delimited] using hd
    have hrep : readRepeatedUint64 rounds 2 (get x) (mark data b g) = .error .panic r :=
      bind_of_error hr
    rw [field, bind_of_error hrep]
    trivial
  | none =>
    obtain rfl : wire = 2 := by simpa [delimited] using hd
    obtain ⟨r, hr, hback⟩ := @skip_beyond data b rest g n hs hsize hn hbig
    rw [field, bind_of_ok hr]
    exact hback

end Beyond

section Records

variable {m : S.Msg} {x : S.Carrier m} {depth f : ℕ} {b₁ : Bytes}

theorem not_big {n : UInt64} (hshort : Short data b) (hn : Varint.get b = some (n, rest)) :
    ¬ maxInt ≤ data.length - rest.length + n.toNat := Nat.not_le.mpr (hshort hn)

theorem turn_plain (hsize : data.length + 8 < maxInt) (hs : b <:+ data)
    (ht : tag b = some ((f, wire), b₁)) (hr : ∀ m' set, S.rules m f ≠ some (.message m' set))
    (hshort : delimited (S.rules m f) wire = true → Short data b₁) :
    Turn S m data g (data.length < rounds) x b
      (field rounds sub (S.rules m f) wire x (mark data b₁ g)) := by
  have hb₁ : b₁ <:+ data := (fronted_tag.suffix ht).trans hs
  have htag := length_of_tag ht
  have hreads : ∀ {z}, Reads S m x b z →
      ∃ y rest, plain (S.rules m f) wire x b₁ = some (y, rest) ∧ Reads S m y rest z := by
    intro z hz
    rcases hz.of_tag ht with ⟨y, rest, hp, hz⟩ | ⟨m', set, _, _, _, hr', _⟩
    · exact ⟨y, rest, hp, hz⟩
    · exact absurd hr' (hr m' set)
  have hover : Overlong S maxInt m data.length b →
      ∃ y rest, plain (S.rules m f) wire x b₁ = some (y, rest) ∧
        Overlong S maxInt m data.length rest := by
    intro ho
    rcases ho.of_tag ht with ⟨hd, n, rest, hn, hbig⟩ | ⟨m', set, _, _, hr', _⟩ | ⟨_, _, rest, hp, ho⟩
    · exact absurd hbig (not_big (hshort hd) hn)
    · exact absurd hr' (hr m' set)
    · obtain ⟨y, hp⟩ := plain_other x hp
      exact ⟨y, rest, hp, ho⟩
  rcases @field_plain data b₁ g S _ rounds wire sub _ x hsize hb₁ hshort hr with ⟨hst, hn⟩ | hag
  · exact .stuck (Nat.not_lt.mpr hn) hst
  · rcases hp : plain (S.rules m f) wire x b₁ with _ | ⟨y, rest⟩ <;> rw [hp] at hag hreads hover
    · exact .refuses (fun z hz => by simpa using hreads hz) (fun ho => by simpa using hover ho) hag
    · have hsuffix := (fronted_plain ..).suffix hp
      refine .reads y rest (fun z => ⟨fun hz => .plain ht hp hz, fun hz => ?_⟩)
        ⟨fun ho => .plain ht hp ho, fun ho => ?_⟩ (hsuffix.trans hb₁)
        (hsuffix.length_le.trans_lt htag) hag
      · simpa using hreads hz
      · simpa using hover ho

variable (hsub : ∀ m' (p : Bytes), p.length < data.length →
  Outcome S m' p g (p.length < depth) (S.init m') p (sub m' (mark p p g)))
include hsub

theorem turn_message {m' : S.Msg} {set : S.Carrier m' → S.Carrier m → S.Carrier m}
    (hsize : data.length + 8 < maxInt) (hs : b <:+ data) (ht : tag b = some ((f, wire), b₁))
    (hr : S.rules m f = some (.message m' set)) (hshort : Short data b₁) :
    Turn S m data g (data.length ≤ depth) x b
      (field rounds sub (S.rules m f) wire x (mark data b₁ g)) := by
  have hb₁ : b₁ <:+ data := (fronted_tag.suffix ht).trans hs
  have htag := length_of_tag ht
  have hle := hs.length_le
  have hreads : ∀ {z}, Reads S m x b z → ∃ body rest y, chunk b₁ = some (body, rest) ∧
      Reads S m' (S.init m') body y ∧ Reads S m (set y x) rest z := by
    intro z hz
    rcases hz.of_tag ht with ⟨_, _, hp, _⟩ | ⟨_, _, body, rest, y, hr', hc, hy, hz⟩
    · rw [hr] at hp
      cases hp
    · cases hr.symm.trans hr'
      exact ⟨body, rest, y, hc, hy, hz⟩
  have hover : Overlong S maxInt m data.length b → ∃ body rest, chunk b₁ = some (body, rest) ∧
      (Overlong S maxInt m' body.length body ∨
        (∃ y, Reads S m' (S.init m') body y) ∧ Overlong S maxInt m data.length rest) := by
    intro ho
    rcases ho.of_tag ht with ⟨_, n, rest, hn, hbig⟩ | ⟨_, _, body, rest, hr', hc, ho⟩ | ⟨_, _, _, hp, _⟩
    · exact absurd hbig (not_big hshort hn)
    · cases hr.symm.trans hr'
      exact ⟨body, rest, hc, ho⟩
    · rw [hr] at hp
      cases hp
  have hread := @readBytes_mark data b₁ g hb₁ hshort
  rw [hr]
  rcases hc : chunk b₁ with _ | ⟨body, rest⟩ <;> rw [hc] at hread hreads hover
  · exact .refuses (fun z hz => by simpa using hreads hz) (fun ho => by simpa using hover ho)
      (Refuses.bind hread)
  · have hbody := length_of_chunk hc
    have hbind : field rounds sub (some (.message m' set)) wire x (mark data b₁ g) =
        (within body (sub m') >>= fun y => pure (set y x)) (mark data rest g) := bind_of_ok hread
    rw [hbind]
    rcases hsub m' body (by omega) with ⟨y, hy, hres⟩ | ⟨hno, hno', hres⟩ | ⟨hn, hres⟩ | ⟨ho, hres⟩
    · have hshort' := hy.not_overlong (Nat.le_refl _) (show body.length < maxInt by omega)
      refine .reads (set y x) rest (fun z => ⟨fun hz => .message ht hr hc hy hz, fun hz => ?_⟩)
        ⟨fun ho => .message ht hr hc hy ho, fun ho => ?_⟩ ((fronted_chunk.suffix hc).trans hb₁)
        (by omega) ?_
      · obtain ⟨_, _, y', hc', hy', hz⟩ := hreads hz
        cases hc'
        cases hy.unique hy'
        exact hz
      · obtain ⟨_, _, hc', ho⟩ := hover ho
        cases hc'
        exact (ho.resolve_left hshort').2
      · rw [bind_of_ok (within_of_ok hres)]
        rfl
    · refine .refuses (fun z hz => ?_) (fun ho => ?_) hres.within.bind
      · obtain ⟨_, _, y, hc', hy, _⟩ := hreads hz
        cases hc'
        exact hno y hy
      · obtain ⟨_, _, hc', ho⟩ := hover ho
        cases hc'
        obtain ⟨⟨y, hy⟩, -⟩ := ho.resolve_left hno'
        exact hno y hy
    · exact .stuck (fun h => hn (by omega)) hres.within.bind
    · exact .overlong (.inside ht hr hc ho) ((Spoilt.within hres).bind fun _ => .pure _)

theorem turn_outcome (hsize : data.length + 8 < maxInt) (hs : b <:+ data)
    (ht : tag b = some ((f, wire), b₁)) :
    Turn S m data g (data.length < rounds ∧ data.length ≤ depth) x b
      (field rounds sub (S.rules m f) wire x (mark data b₁ g)) := by
  by_cases hlong : delimited (S.rules m f) wire = true ∧ ¬ Short data b₁
  · obtain ⟨hd, hlong⟩ := hlong
    simp only [Short, not_forall, not_lt] at hlong
    obtain ⟨v, rest, hv, hbig⟩ := hlong
    have hb₁ : b₁ <:+ data := (fronted_tag.suffix ht).trans hs
    exact .overlong (.here ht hd hv hbig) (field_beyond hb₁ (by omega) hv hbig hd)
  · have hshort : delimited (S.rules m f) wire = true → Short data b₁ := fun hd =>
      not_not.mp fun h => hlong ⟨hd, h⟩
    by_cases hr : ∃ m' set, S.rules m f = some (.message m' set)
    · obtain ⟨m', set, hr⟩ := hr
      exact (turn_message hsub hsize hs ht hr (hshort (by rw [hr]; rfl))).mono fun h => h.2
    · exact (turn_plain hsize hs ht (fun m' set h => hr ⟨m', set, h⟩) hshort).mono fun h => h.1

theorem records_outcome {n : ℕ} (hstick : ∀ m', Sticky (sub m')) (hsize : data.length + 8 < maxInt)
    (hs : b <:+ data) :
    Outcome S m data g (b.length < n ∧ data.length < rounds ∧ data.length ≤ depth) x b
      (records rounds sub m n x (mark data b g)) := by
  induction n generalizing b x with
  | zero => exact .stuck (fun h => Nat.not_lt_zero _ h.1) ⟨_, rfl⟩
  | succ n ih =>
    rw [records, bind_get]
    cases b with
    | nil =>
      rw [done_nil, if_pos rfl]
      exact .reads x (.nil x) rfl
    | cons c b =>
      rw [done_cons hs, if_neg Bool.false_ne_true]
      have htag := @readTag_mark data (c :: b) g hs
      rcases ht : tag (c :: b) with _ | ⟨⟨f, w⟩, b₁⟩ <;> rw [ht] at htag
      · refine .refuses (fun y hy => ?_) (fun ho => ?_) (Refuses.bind htag)
        · cases hy <;> simp_all
        · cases ho <;> simp_all
      · rw [bind_of_ok htag]
        dsimp only
        rcases @turn_outcome _ _ g S rounds w sub m x depth f b₁ hsub hsize hs ht with
          ⟨y, rest, hiff, hover, hrest, hlen, hres⟩ | ⟨hno, hno', hres⟩ | ⟨hn, hres⟩ | ⟨ho, hres⟩
        · rw [bind_of_ok hres]
          rcases @ih rest y hrest with ⟨z, hz, hres⟩ | ⟨hno, hno', hres⟩ | ⟨hn, hres⟩ | ⟨ho, hres⟩
          · exact .reads z ((hiff z).mp hz) hres
          · exact .refuses (fun z hz => hno z ((hiff z).mpr hz)) (fun ho => hno' (hover.mpr ho)) hres
          · exact .stuck (fun h => hn ⟨by omega, h.2⟩) hres
          · exact .overlong (hover.mp ho) hres
        · exact .refuses hno hno' hres.bind
        · exact .stuck (fun h => hn h.2) hres.bind
        · exact .overlong ho (Spoilt.bind hres fun _ => .records hstick)

end Records

theorem unmarshal_outcome {n : ℕ} {m : S.Msg} (hsize : data.length + 8 < maxInt) :
    Outcome S m data g (data.length < n) (S.init m) data (unmarshal S n m (mark data data g)) := by
  induction n generalizing m data with
  | zero => exact .stuck (Nat.not_lt_zero _) ⟨_, rfl⟩
  | succ n ih =>
    have hrun := @records_outcome data data g S (n + 1) (unmarshal S n) m (S.init m) n
      (fun m' p hp => ih (by omega)) (n + 1) (fun m' => .unmarshal n m') hsize List.suffix_rfl
    rw [unmarshal]
    rcases hrun with ⟨y, hy, hres⟩ | ⟨hno, hno', hres⟩ | ⟨hn, hres⟩ | ⟨ho, hres⟩
    · exact .reads y hy hres
    · exact .refuses hno hno' hres
    · exact .stuck (fun h => hn ⟨h, h, Nat.le_of_lt_succ h⟩) hres
    · exact .overlong ho hres

/-- Decoding ends with a message or an error, having read inside the buffer and moved forward. -/
def Ends (S : Schema) (m : S.Msg) (data : Bytes) : Prop :=
  ∃ n, ¬ Spoilt (unmarshal S n m { buf := data })

theorem ends_iff {m : S.Msg} (hsize : data.length + 8 < maxInt) :
    Ends S m data ↔ ¬ Overlong S maxInt m data.length data := by
  have hstart : (⟨data, 0, false⟩ : Reader) = mark data data false := by simp [mark]
  constructor
  · rintro ⟨n, hn⟩
    rw [hstart] at hn
    rcases @unmarshal_outcome data false S n m hsize with
      ⟨y, hy, _⟩ | ⟨_, hno, _⟩ | ⟨_, r, hres⟩ | ⟨_, hres⟩
    · exact hy.not_overlong (Nat.le_refl _) (by omega)
    · exact hno
    · rw [hres] at hn
      exact absurd trivial hn
    · exact absurd hres hn
  · intro hno
    refine ⟨data.length + 1, ?_⟩
    rw [hstart]
    rcases @unmarshal_outcome data false S (data.length + 1) m hsize with
      ⟨y, _, hres⟩ | ⟨_, _, e, r, hres, hr⟩ | ⟨hn, _⟩ | ⟨ho, _⟩
    · rw [hres]
      exact Bool.false_ne_true
    · rw [hres]
      exact fun h => Bool.false_ne_true (hr.symm.trans h)
    · exact absurd (Nat.lt_succ_self _) hn
    · exact absurd ho hno

theorem unmarshal_of_reads {n : ℕ} {m : S.Msg} {y : S.Carrier m} (hsize : data.length + 8 < maxInt)
    (h : Reads S m (S.init m) data y) (hn : data.length < n) :
    unmarshal S n m { buf := data } = .ok y { buf := data, pos := data.length } := by
  have hstart : (⟨data, 0, false⟩ : Reader) = mark data data false := by simp [mark]
  have hend : (⟨data, data.length, false⟩ : Reader) = mark data [] false := by simp [mark]
  rw [hstart, hend]
  rcases @unmarshal_outcome data false S n m hsize with
    ⟨y', hy, hres⟩ | ⟨hno, _⟩ | ⟨hn', _⟩ | ⟨ho, _⟩
  · cases h.unique hy
    exact hres
  · exact absurd h (hno y)
  · exact absurd hn hn'
  · exact absurd ho (h.not_overlong (Nat.le_refl _) (by omega))

end VecDb.Vecpb
