import Sluice.Text.Utf8

namespace Sluice

namespace Codec

inductive Fault
  | truncated
  | badFlag
  | badText
  | badVariant
deriving DecidableEq, Repr

end Codec

-- Bytes are taken from the front of what is read, and the rest is left.
structure Codec (α : Type) where
  encode : α → Bytes
  decode : Bytes → Except Codec.Fault (α × Bytes)

namespace Codec

variable {α β : Type}

-- A number below `256 ^ width`.
def word (width : Nat) : Codec Nat where
  encode n := Bytes.ofNat width n
  decode bytes :=
    match bytes.split? width with
    | none => .error .truncated
    | some (front, rest) => .ok (front.toNat, rest)

-- The same bytes for another type of values.
def map (codec : Codec α) (build : α → β) (parts : β → α) : Codec β where
  encode value := codec.encode (parts value)
  decode bytes :=
    match codec.decode bytes with
    | .error fault => .error fault
    | .ok (value, rest) => .ok (build value, rest)

def pair (first : Codec α) (second : Codec β) : Codec (α × β) where
  encode value := first.encode value.1 ++ second.encode value.2
  decode bytes :=
    match first.decode bytes with
    | .error fault => .error fault
    | .ok (left, rest) =>
        match second.decode rest with
        | .error fault => .error fault
        | .ok (right, rest) => .ok ((left, right), rest)

-- No bytes at all.
def constant (value : α) : Codec α where
  encode _ := []
  decode bytes := .ok (value, bytes)

-- One of several forms: four bytes tell which, and the form decides about what follows.
def tagged (tag : α → Nat) (form : Nat → Option (Codec α)) : Codec α where
  encode value :=
    Bytes.ofNat 4 (tag value) ++ match form (tag value) with
      | some codec => codec.encode value
      | none => []
  decode bytes :=
    match (word 4).decode bytes with
    | .error fault => .error fault
    | .ok (found, rest) =>
        match form found with
        | some codec => codec.decode rest
        | none => .error .badVariant

-- One of the values of a list, written as its place.
def oneOf [DecidableEq α] (values : List α) : Codec α :=
  tagged (fun value => values.idxOf value) fun place => values[place]?.map constant

def decodeTimes (codec : Codec α) : Nat → Bytes → Except Fault (List α × Bytes)
  | 0, bytes => .ok ([], bytes)
  | count + 1, bytes =>
      match codec.decode bytes with
      | .error fault => .error fault
      | .ok (value, rest) =>
          match decodeTimes codec count rest with
          | .error fault => .error fault
          | .ok (values, rest) => .ok (value :: values, rest)

def list (codec : Codec α) : Codec (List α) where
  encode values := Bytes.ofNat 8 values.length ++ values.flatMap codec.encode
  decode bytes :=
    match (word 8).decode bytes with
    | .error fault => .error fault
    | .ok (count, rest) => decodeTimes codec count rest

def flag : Codec Bool where
  encode value := [if value then 1 else 0]
  decode bytes :=
    match bytes with
    | [] => .error .truncated
    | byte :: rest =>
        if byte = 0 then .ok (false, rest)
        else if byte = 1 then .ok (true, rest)
        else .error .badFlag

def text : Codec String where
  encode value := Bytes.ofNat 8 (Text.encode value).length ++ Text.encode value
  decode bytes :=
    match (word 8).decode bytes with
    | .error fault => .error fault
    | .ok (length, rest) =>
        match rest.split? length with
        | none => .error .truncated
        | some (front, rest) =>
            match Text.decode? front with
            | some value => .ok (value, rest)
            | none => .error .badText

def byte : Codec UInt8 := (word 1).map UInt8.ofNat UInt8.toNat

def uint32 : Codec UInt32 := (word 4).map UInt32.ofNat UInt32.toNat

def uint64 : Codec UInt64 := (word 8).map UInt64.ofNat UInt64.toNat

def int32 : Codec Int32 := uint32.map UInt32.toInt32 Int32.toUInt32

def int64 : Codec Int64 := uint64.map UInt64.toInt64 Int64.toUInt64

end Codec

end Sluice
