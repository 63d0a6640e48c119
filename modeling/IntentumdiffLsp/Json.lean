import IntentumdiffLsp.Foundations.Text

namespace IntentumdiffLsp.Json

open Foundations

/-- A JSON number: an unsigned or a negative 64-bit integer, or a float given
by its bits. -/
inductive Number where
  | posInt (n : UInt64)
  | negInt (n : Int64)
  | float (bits : UInt64)

inductive Value where
  | null
  | bool (b : Bool)
  | number (n : Number)
  | string (s : String)
  | array (items : List Value)
  | object (fields : List (String × Value))

/-- Arithmetic on an `i64` wraps. -/
def wrapI64 (n : Int) : Int :=
  n.bmod (2 ^ 64)

theorem wrapI64_eq_self {n : Int} (hlow : -2 ^ 63 ≤ n) (hhigh : n < 2 ^ 63) : wrapI64 n = n := by
  unfold wrapI64
  rw [Int.bmod_eq_of_le] <;> omega

theorem wrapI64_wrapI64 (n : Int) : wrapI64 (wrapI64 n) = wrapI64 n :=
  Int.bmod_bmod

theorem wrapI64_wrapI64_add (n m : Int) : wrapI64 (wrapI64 n + m) = wrapI64 (n + m) :=
  Int.bmod_add_bmod

namespace Value

def asI64 : Value → Option Int
  | number (.posInt n) => if n.toNat < 2 ^ 63 then some n.toNat else none
  | number (.negInt n) => some n.toInt
  | _ => none

def ofI64 (n : Int) : Value :=
  if 0 ≤ n then number (.posInt (UInt64.ofNat n.toNat)) else number (.negInt (Int64.ofInt n))

def asStr : Value → Option String
  | string s => some s
  | _ => none

def asBool : Value → Option Bool
  | bool b => some b
  | _ => none

def asArray : Value → Option (List Value)
  | array items => some items
  | _ => none

/-- Member access; values that are not objects have no members. -/
def get (v : Value) (key : String) : Option Value :=
  match v with
  | object fields => (fields.find? fun field => field.1 == key).map Prod.snd
  | _ => none

def pointer (v : Value) : List String → Option Value
  | [] => some v
  | token :: tokens => (v.get token).bind fun member => member.pointer tokens

end Value

/-- The two directions of `serde_json` that the wire rests on. A Rust string
holds at most `isize::MAX` bytes, and no text at all is not a JSON document. -/
structure SerdeJson where
  toString : Value → String
  fromSlice : List UInt8 → Option Value
  toString_size : ∀ v, (Utf8.encode (toString v).toList).length < 2 ^ 63
  fromSlice_empty : fromSlice [] = none

def SerdeJson.Faithful (serde : SerdeJson) (v : Value) : Prop :=
  serde.fromSlice (Utf8.encode (serde.toString v).toList) = some v

theorem SerdeJson.Faithful.toString_ne_nil {serde : SerdeJson} {v : Value}
    (h : serde.Faithful v) : Utf8.encode (serde.toString v).toList ≠ [] := by
  intro hnil
  rw [SerdeJson.Faithful, hnil, serde.fromSlice_empty] at h
  cases h

end IntentumdiffLsp.Json
