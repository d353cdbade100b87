import Kurogane.Kv.StateMachine

/-!
Commands and snapshots as bytes: one-byte tags, and byte strings prefixed by
their length as a big-endian `u32`. A reader never leaves its input: its
position is inside it by construction. What it reads is what an encoder would
have written there, so decoding accepts the encodings and nothing else.
-/

namespace Kurogane.Kv

open Kurogane.Raft (Bytes)

inductive DecodeError where
  | truncated
  | unknownTag (tag : UInt8)
deriving DecidableEq, Repr

/-- `(length as u32).to_be_bytes()`: a length from 2^32 on is cut off. -/
def lengthBytes (length : Nat) : Bytes :=
  [(length / 16777216).toUInt8, (length / 65536).toUInt8, (length / 256).toUInt8,
    length.toUInt8]

/-- `u32::from_be_bytes`. -/
def fromLengthBytes (bytes : Bytes) : Nat :=
  bytes.foldl (fun length byte => length * 256 + byte.toNat) 0

def encodeBytes (value : Bytes) : Bytes := lengthBytes value.length ++ value

structure ByteReader where
  bytes : Bytes
  position : Nat
  inside : position ≤ bytes.length

namespace ByteReader

def new (bytes : Bytes) : ByteReader := ⟨bytes, 0, Nat.zero_le _⟩

/-- What has not been read yet. -/
def rest (reader : ByteReader) : Bytes := reader.bytes.drop reader.position

def readU8 (reader : ByteReader) : Except DecodeError (UInt8 × ByteReader) :=
  if h : reader.position < reader.bytes.length then
    .ok (reader.bytes[reader.position], ⟨reader.bytes, reader.position + 1, h⟩)
  else .error .truncated

/-- `bytes.get(position..position + count)`, then the reader behind it. -/
def readSlice (reader : ByteReader) (count : Nat) :
    Except DecodeError (Bytes × ByteReader) :=
  if h : reader.position + count ≤ reader.bytes.length then
    .ok (reader.rest.take count, ⟨reader.bytes, reader.position + count, h⟩)
  else .error .truncated

def readBytes (reader : ByteReader) : Except DecodeError (Bytes × ByteReader) := do
  let (length, reader) ← reader.readSlice 4
  reader.readSlice (fromLengthBytes length)

def isAtEnd (reader : ByteReader) : Bool := reader.bytes.length ≤ reader.position

end ByteReader

def setTag : UInt8 := 0

def deleteTag : UInt8 := 1

def getTag : UInt8 := 2

namespace Command

def encode : Command → Bytes
  | .set key value => setTag :: (encodeBytes key ++ encodeBytes value)
  | .delete key => deleteTag :: encodeBytes key
  | .get key => getTag :: encodeBytes key

/-- Bytes after the command are not looked at. -/
def decode (bytes : Bytes) : Except DecodeError Command := do
  let (tag, reader) ← (ByteReader.new bytes).readU8
  if tag = setTag then
    let (key, reader) ← reader.readBytes
    let (value, _) ← reader.readBytes
    .ok (.set key value)
  else if tag = deleteTag then
    let (key, _) ← reader.readBytes
    .ok (.delete key)
  else if tag = getTag then
    let (key, _) ← reader.readBytes
    .ok (.get key)
  else
    .error (.unknownTag tag)

/-- All of its fields have a length that fits its prefix. -/
def Fits : Command → Prop
  | .set key value => key.length < 4294967296 ∧ value.length < 4294967296
  | .delete key | .get key => key.length < 4294967296

instance : DecidablePred Fits := fun command =>
  match command with
  | .set _ _ => inferInstanceAs (Decidable (_ ∧ _))
  | .delete _ => inferInstanceAs (Decidable (_ < _))
  | .get _ => inferInstanceAs (Decidable (_ < _))

end Command

/-! ### Lengths -/

theorem fromLengthBytes_lengthBytes (length : Nat) :
    fromLengthBytes (lengthBytes length) = length % 4294967296 := by
  simp only [fromLengthBytes, lengthBytes, List.foldl_cons, List.foldl_nil,
    Nat.toUInt8_eq, UInt8.toNat_ofNat', Nat.reducePow]
  omega

theorem fromLengthBytes_lt {bytes : Bytes} (hbytes : bytes.length = 4) :
    fromLengthBytes bytes < 4294967296 := by
  obtain ⟨b₃, b₂, b₁, b₀, rfl⟩ := List.length_eq_four.mp hbytes
  have h₃ := b₃.toNat_lt
  have h₂ := b₂.toNat_lt
  have h₁ := b₁.toNat_lt
  have h₀ := b₀.toNat_lt
  simp only [fromLengthBytes, List.foldl_cons, List.foldl_nil]
  omega

/-- Four bytes are the prefix of the length they stand for. -/
theorem lengthBytes_fromLengthBytes {bytes : Bytes} (hbytes : bytes.length = 4) :
    lengthBytes (fromLengthBytes bytes) = bytes := by
  obtain ⟨b₃, b₂, b₁, b₀, rfl⟩ := List.length_eq_four.mp hbytes
  have h₃ := b₃.toNat_lt
  have h₂ := b₂.toNat_lt
  have h₁ := b₁.toNat_lt
  have h₀ := b₀.toNat_lt
  have hbyte : ∀ (n : Nat) (b : UInt8), n % 256 = b.toNat → n.toUInt8 = b := by
    intro n b hn
    apply UInt8.toNat_inj.mp
    rw [← hn, Nat.toUInt8_eq, UInt8.toNat_ofNat']
  simp only [fromLengthBytes, lengthBytes, List.foldl_cons, List.foldl_nil]
  rw [hbyte _ b₃ (by omega), hbyte _ b₂ (by omega), hbyte _ b₁ (by omega),
    hbyte _ b₀ (by omega)]

theorem length_lengthBytes (length : Nat) : (lengthBytes length).length = 4 := rfl

/-! ### Reading -/

namespace ByteReader

variable {reader next : ByteReader} {value tail : Bytes}

theorem length_rest (reader : ByteReader) :
    reader.rest.length = reader.bytes.length - reader.position :=
  List.length_drop

theorem isAtEnd_iff : reader.isAtEnd = true ↔ reader.rest = [] := by
  rw [isAtEnd, decide_eq_true_eq, rest, List.drop_eq_nil_iff]

theorem readU8_of_rest {byte : UInt8} (h : reader.rest = byte :: tail) :
    ∃ next, reader.readU8 = .ok (byte, next) ∧ next.rest = tail := by
  have hlength := reader.length_rest
  rw [h, List.length_cons] at hlength
  have hinside : reader.position < reader.bytes.length := by omega
  have hsplit := List.drop_eq_getElem_cons hinside
  have hrest : reader.bytes.drop reader.position = byte :: tail := h
  rw [hrest] at hsplit
  obtain ⟨hbyte, htail⟩ := List.cons.inj hsplit
  refine ⟨⟨reader.bytes, reader.position + 1, hinside⟩, ?_, htail.symm⟩
  rw [readU8, dif_pos hinside, hbyte]

theorem readSlice_of_rest (h : reader.rest = value ++ tail) :
    ∃ next, reader.readSlice value.length = .ok (value, next) ∧ next.rest = tail := by
  have hlength := reader.length_rest
  have hinside := reader.inside
  rw [h, List.length_append] at hlength
  have hnext : reader.position + value.length ≤ reader.bytes.length := by omega
  refine ⟨⟨reader.bytes, reader.position + value.length, hnext⟩, ?_, ?_⟩
  · rw [readSlice, dif_pos hnext, h, List.take_left]
  · rw [rest, ← List.drop_drop]
    have hrest : reader.bytes.drop reader.position = value ++ tail := h
    rw [hrest, List.drop_left]

theorem readSlice_ok {count : Nat} (h : reader.readSlice count = .ok (value, next)) :
    reader.rest = value ++ next.rest ∧ value.length = count := by
  unfold readSlice at h
  split at h
  · rename_i hinside
    cases h
    constructor
    · rw [rest, rest, ← List.drop_drop, List.take_append_drop]
    · rw [List.length_take, length_rest]
      omega
  · cases h

theorem readSlice_error {count : Nat} {error : DecodeError}
    (h : reader.readSlice count = .error error) : error = .truncated := by
  unfold readSlice at h
  split at h <;> cases h
  rfl

/-- Of what `encode_bytes` has written as many bytes are read back as the prefix says. -/
theorem readBytes_of_encoded (h : reader.rest = encodeBytes value ++ tail) :
    ∃ next, reader.readBytes = .ok (value.take (value.length % 4294967296), next) ∧
      next.rest = value.drop (value.length % 4294967296) ++ tail := by
  rw [encodeBytes, List.append_assoc] at h
  obtain ⟨middle, hlength, hmiddle⟩ := readSlice_of_rest h
  rw [← List.take_append_drop (value.length % 4294967296) value, List.append_assoc] at hmiddle
  obtain ⟨next, hvalue, hnext⟩ := readSlice_of_rest hmiddle
  rw [length_lengthBytes] at hlength
  rw [List.length_take_of_le (Nat.mod_le _ _)] at hvalue
  refine ⟨next, ?_, hnext⟩
  rw [readBytes, hlength]
  simp only [bind, Except.bind]
  rw [fromLengthBytes_lengthBytes, hvalue]

/-- What `encode_bytes` has written is read back. -/
theorem readBytes_of_rest (hfits : value.length < 4294967296)
    (h : reader.rest = encodeBytes value ++ tail) :
    ∃ next, reader.readBytes = .ok (value, next) ∧ next.rest = tail := by
  obtain ⟨next, hread, hnext⟩ := readBytes_of_encoded h
  rw [Nat.mod_eq_of_lt hfits, List.take_length] at hread
  rw [Nat.mod_eq_of_lt hfits, List.drop_length] at hnext
  exact ⟨next, hread, hnext⟩

/-- No prefix says more than what that many bytes can hold. -/
theorem readBytes_of_long (h : 4294967300 ≤ reader.rest.length) :
    ∃ found, reader.readBytes = .ok found := by
  have hfour : (reader.rest.take 4).length = 4 := List.length_take_of_le (by omega)
  obtain ⟨middle, hlength, hmiddle⟩ :=
    readSlice_of_rest (List.take_append_drop 4 reader.rest).symm
  have hsaid := fromLengthBytes_lt hfour
  have hlong : fromLengthBytes (reader.rest.take 4) ≤ middle.rest.length := by
    rw [hmiddle, List.length_drop]
    omega
  have hsplit := List.take_append_drop (fromLengthBytes (reader.rest.take 4)) middle.rest
  obtain ⟨next, hvalue, -⟩ := readSlice_of_rest hsplit.symm
  rw [hfour] at hlength
  rw [List.length_take_of_le hlong] at hvalue
  refine ⟨(middle.rest.take (fromLengthBytes (reader.rest.take 4)), next), ?_⟩
  rw [readBytes, hlength]
  exact hvalue

/-- What is read is what `encode_bytes` would have written. -/
theorem readBytes_ok (h : reader.readBytes = .ok (value, next)) :
    reader.rest = encodeBytes value ++ next.rest ∧ value.length < 4294967296 := by
  unfold readBytes at h
  cases hlength : reader.readSlice 4 with
  | error error =>
      rw [hlength] at h
      cases h
  | ok found =>
      obtain ⟨length, middle⟩ := found
      rw [hlength] at h
      obtain ⟨hfirst, hfour⟩ := readSlice_ok hlength
      obtain ⟨hsecond, hvalue⟩ := readSlice_ok h
      constructor
      · rw [hfirst, hsecond, encodeBytes, hvalue, lengthBytes_fromLengthBytes hfour,
          List.append_assoc]
      · rw [hvalue]
        exact fromLengthBytes_lt hfour

theorem readBytes_error {error : DecodeError} (h : reader.readBytes = .error error) :
    error = .truncated := by
  unfold readBytes at h
  cases hlength : reader.readSlice 4 with
  | error found =>
      rw [hlength] at h
      cases h
      exact readSlice_error hlength
  | ok found =>
      rw [hlength] at h
      exact readSlice_error h

end ByteReader

/-! ### Commands -/

namespace Command

variable {bytes : Bytes} {command : Command}

theorem rest_new (bytes : Bytes) : (ByteReader.new bytes).rest = bytes := rfl

/-- After the tag comes what its fields are read from. -/
theorem decode_cons (tag : UInt8) (tail : Bytes) :
    ∃ reader : ByteReader, reader.rest = tail ∧ decode (tag :: tail) =
      if tag = setTag then
        reader.readBytes.bind (fun first =>
          first.2.readBytes.bind (fun second => .ok (.set first.1 second.1)))
      else if tag = deleteTag then
        reader.readBytes.bind (fun first => .ok (.delete first.1))
      else if tag = getTag then
        reader.readBytes.bind (fun first => .ok (.get first.1))
      else .error (.unknownTag tag) := by
  obtain ⟨reader, htag, hrest⟩ := ByteReader.readU8_of_rest (rest_new (tag :: tail))
  refine ⟨reader, hrest, ?_⟩
  rw [decode, htag]
  rfl

theorem decode_of_start (hfits : command.Fits) (h : command.encode <+: bytes) :
    decode bytes = .ok command := by
  obtain ⟨tail, rfl⟩ := h
  cases command with
  | set key value =>
      obtain ⟨hkey, hvalue⟩ := hfits
      rw [encode, List.cons_append, List.append_assoc]
      obtain ⟨reader, hrest, hdecode⟩ :=
        decode_cons setTag (encodeBytes key ++ (encodeBytes value ++ tail))
      obtain ⟨middle, hfirst, hmiddle⟩ := ByteReader.readBytes_of_rest hkey hrest
      obtain ⟨last, hsecond, -⟩ := ByteReader.readBytes_of_rest hvalue hmiddle
      rw [hdecode, if_pos rfl, hfirst]
      simp only [Except.bind]
      rw [hsecond]
  | delete key =>
      have hkey : key.length < 4294967296 := hfits
      rw [encode, List.cons_append]
      obtain ⟨reader, hrest, hdecode⟩ := decode_cons deleteTag (encodeBytes key ++ tail)
      obtain ⟨last, hread, -⟩ := ByteReader.readBytes_of_rest hkey hrest
      rw [hdecode, if_neg (by decide), if_pos rfl, hread]
      rfl
  | get key =>
      have hkey : key.length < 4294967296 := hfits
      rw [encode, List.cons_append]
      obtain ⟨reader, hrest, hdecode⟩ := decode_cons getTag (encodeBytes key ++ tail)
      obtain ⟨last, hread, -⟩ := ByteReader.readBytes_of_rest hkey hrest
      rw [hdecode, if_neg (by decide), if_neg (by decide), if_pos rfl, hread]
      rfl

/-- What is read from the bytes that `encode` writes of a command: another one where a
length is cut off. -/
def readBack (command : Command) : Command :=
  (decode command.encode).toOption.getD command

theorem decode_encode (command : Command) :
    decode command.encode = .ok command.readBack := by
  have hread : ∃ found, decode command.encode = .ok found := by
    cases command with
    | set key value =>
        obtain ⟨reader, hrest, hdecode⟩ :=
          decode_cons setTag (encodeBytes key ++ encodeBytes value)
        obtain ⟨middle, hfirst, hmiddle⟩ := ByteReader.readBytes_of_encoded hrest
        -- behind a key that is too long, enough is left for any value
        have hsecond : ∃ found, middle.readBytes = .ok found := by
          rcases Nat.lt_or_ge key.length 4294967296 with hkey | hkey
          · rw [Nat.mod_eq_of_lt hkey, List.drop_length, List.nil_append,
              ← List.append_nil (encodeBytes value)] at hmiddle
            obtain ⟨last, hvalue, -⟩ := ByteReader.readBytes_of_encoded hmiddle
            exact ⟨_, hvalue⟩
          · apply ByteReader.readBytes_of_long
            rw [hmiddle, List.length_append, List.length_drop, encodeBytes, List.length_append,
              length_lengthBytes]
            omega
        obtain ⟨found, hsecond⟩ := hsecond
        refine ⟨.set (key.take (key.length % 4294967296)) found.1, ?_⟩
        rw [encode, hdecode, if_pos rfl, hfirst]
        simp only [Except.bind]
        rw [hsecond]
    | delete key =>
        obtain ⟨reader, hrest, hdecode⟩ := decode_cons deleteTag (encodeBytes key)
        rw [← List.append_nil (encodeBytes key)] at hrest
        obtain ⟨last, hread, -⟩ := ByteReader.readBytes_of_encoded hrest
        refine ⟨.delete (key.take (key.length % 4294967296)), ?_⟩
        rw [encode, hdecode, if_neg (by decide), if_pos rfl, hread]
        rfl
    | get key =>
        obtain ⟨reader, hrest, hdecode⟩ := decode_cons getTag (encodeBytes key)
        rw [← List.append_nil (encodeBytes key)] at hrest
        obtain ⟨last, hread, -⟩ := ByteReader.readBytes_of_encoded hrest
        refine ⟨.get (key.take (key.length % 4294967296)), ?_⟩
        rw [encode, hdecode, if_neg (by decide), if_neg (by decide), if_pos rfl, hread]
        rfl
  obtain ⟨found, hread⟩ := hread
  rw [readBack, hread]
  rfl

/-- What decoding returns: a command whose encoding the input starts with, or
one of the two errors. -/
theorem decode_cases (bytes : Bytes) :
    (∃ command, decode bytes = .ok command ∧ command.Fits ∧ command.encode <+: bytes) ∨
      decode bytes = .error .truncated ∨
        ∃ tag, decode bytes = .error (.unknownTag tag) := by
  cases bytes with
  | nil => exact Or.inr (Or.inl rfl)
  | cons tag tail =>
      obtain ⟨reader, rfl, hdecode⟩ := decode_cons tag tail
      rw [hdecode]
      clear hdecode
      by_cases hset : tag = setTag
      · rw [if_pos hset, hset]
        cases hfirst : reader.readBytes with
        | error error => exact Or.inr (Or.inl (by rw [reader.readBytes_error hfirst]; rfl))
        | ok first =>
            obtain ⟨key, middle⟩ := first
            simp only [Except.bind]
            obtain ⟨hrest, hkey⟩ := ByteReader.readBytes_ok hfirst
            cases hsecond : middle.readBytes with
            | error error =>
                exact Or.inr (Or.inl (by rw [middle.readBytes_error hsecond]))
            | ok second =>
                obtain ⟨value, last⟩ := second
                obtain ⟨hmiddle, hvalue⟩ := ByteReader.readBytes_ok hsecond
                refine Or.inl ⟨.set key value, rfl, ⟨hkey, hvalue⟩, last.rest, ?_⟩
                rw [hrest, hmiddle, encode, List.cons_append, List.append_assoc]
      rw [if_neg hset]
      by_cases hdelete : tag = deleteTag
      · rw [if_pos hdelete, hdelete]
        cases hread : reader.readBytes with
        | error error => exact Or.inr (Or.inl (by rw [reader.readBytes_error hread]; rfl))
        | ok found =>
            obtain ⟨key, last⟩ := found
            obtain ⟨hrest, hkey⟩ := ByteReader.readBytes_ok hread
            exact Or.inl ⟨.delete key, rfl, hkey, last.rest, by rw [hrest]; rfl⟩
      rw [if_neg hdelete]
      by_cases hget : tag = getTag
      · rw [if_pos hget, hget]
        cases hread : reader.readBytes with
        | error error => exact Or.inr (Or.inl (by rw [reader.readBytes_error hread]; rfl))
        | ok found =>
            obtain ⟨key, last⟩ := found
            obtain ⟨hrest, hkey⟩ := ByteReader.readBytes_ok hread
            exact Or.inl ⟨.get key, rfl, hkey, last.rest, by rw [hrest]; rfl⟩
      · rw [if_neg hget]
        exact Or.inr (Or.inr ⟨tag, rfl⟩)

/-- Only a prefix of the input that encodes a command is decoded. -/
theorem start_of_decode (h : decode bytes = .ok command) :
    command.Fits ∧ command.encode <+: bytes := by
  rcases decode_cases bytes with ⟨found, hfound, hfits, hinit⟩ | htruncated |
    ⟨tag, hunknown⟩
  · rw [h] at hfound
    cases hfound
    exact ⟨hfits, hinit⟩
  · rw [h] at htruncated
    cases htruncated
  · rw [h] at hunknown
    cases hunknown

/-- Decoding accepts exactly the encodings of commands that fit, followed by
anything. Every other input is truncated or starts with an unknown tag. -/
theorem decode_accepts_encodings :
    (∀ (bytes : Bytes) (command : Command), command.Fits →
      (decode bytes = .ok command ↔ command.encode <+: bytes)) ∧
    (∀ command : Command, command.Fits → decode command.encode = .ok command) ∧
    (∀ first second : Command, first.Fits → second.Fits →
      first.encode <+: second.encode → first.encode = second.encode) ∧
    ∀ bytes : Bytes,
      (¬ ∃ command : Command, command.Fits ∧ command.encode <+: bytes) →
        decode bytes = .error .truncated ∨
          ∃ tag, decode bytes = .error (.unknownTag tag) := by
  refine ⟨?_, ?_, ?_, ?_⟩
  · intro bytes command hfits
    exact ⟨fun h => (start_of_decode h).2, decode_of_start hfits⟩
  · intro command hfits
    exact decode_of_start hfits (List.prefix_refl _)
  · intro first second hfirst hsecond hinit
    have hread := decode_of_start hfirst hinit
    rw [decode_of_start hsecond (List.prefix_refl _)] at hread
    cases hread
    rfl
  · intro bytes hnone
    rcases decode_cases bytes with ⟨command, -, hfits, hinit⟩ | herror
    · exact absurd ⟨command, hfits, hinit⟩ hnone
    · exact herror

theorem decode_accepts_a_get :
    decode ((Command.get [7]).encode ++ [9]) = .ok (.get [7]) :=
  (decode_accepts_encodings.1 _ (.get [7]) (by decide)).mpr ⟨[9], rfl⟩

end Command

end Kurogane.Kv
