import Boole.Library.Fallible
import Boole.Library.Hex
import Boole.Library.Json

/-!
# Native/Envelope — hashes, keys and signed envelopes

`boole-core`'s `hash.rs`, `canonical_json.rs` and `signed_envelope.rs`, as far as the native chain
uses them.  A 32-byte value is a number below `2 ^ 256`; the derived order of the byte array is the
order of the numbers, because the bytes are read most significant first.

The hash functions and the curve are parameters (`Crypto`): **nothing here depends on what they
compute**, only on what they are given.
-/

open Library Library.Json

namespace Native

/-! ## Fixed-length hexadecimal -/

/-- Thirty-two bytes. -/
abbrev Hex32 := BitVec 256

/-- Sixty-four bytes. -/
abbrev Hex64 := BitVec 512

inductive Hex32Error
  | invalidShape
  | decodeFailed
deriving DecidableEq

def Hex32Error.message : Hex32Error → String
  | .invalidShape => "hex32 must be 64 lowercase hex characters"
  | .decodeFailed => "hex32 decode failed"

/-- `n` lower-case hexadecimal characters, as the number they write. -/
def decodeFixed (n : ℕ) (value : String) : Option ℕ :=
  if value.utf8ByteSize = n then fromHex? value.toList else none

/-- Text that has the right shape always decodes, so `decodeFailed` is never returned. -/
def Hex32.fromHex (value : String) : Except Hex32Error Hex32 :=
  okOr ((decodeFixed 64 value).map (BitVec.ofNat 256)) .invalidShape

def Hex32.toHex (h : Hex32) : String := String.ofList (Library.toHex 64 h.toNat)

def Hex64.fromHex (value : String) : Option Hex64 :=
  (decodeFixed 128 value).map (BitVec.ofNat 512)

theorem utf8_length_toHex (n x : ℕ) : (utf8 (Library.toHex n x)).length = n := by
  have hsize {d : ℕ} (hd : d < 16) : (Nat.digitChar d).utf8Size = 1 := by
    interval_cases d <;> decide
  induction n generalizing x with
  | zero => rfl
  | succ n ih =>
    rw [Library.toHex, utf8, List.flatMap_append]
    have := ih (x / 16)
    rw [utf8] at this
    simp [this, hsize (Nat.mod_lt x (by decide : 0 < 16))]

theorem decodeFixed_toHex {n x : ℕ} (hx : x < 16 ^ n) :
    decodeFixed n (String.ofList (Library.toHex n x)) = some x := by
  rw [decodeFixed, utf8ByteSize_ofList, utf8_length_toHex, if_pos rfl, String.toList_ofList,
    fromHex?_toHex n hx]

@[simp] theorem Hex32.fromHex_toHex (h : Hex32) : Hex32.fromHex h.toHex = .ok h := by
  have hlt : h.toNat < 16 ^ 64 := h.isLt
  simp [Hex32.fromHex, Hex32.toHex, decodeFixed_toHex hlt]

theorem Hex32.toHex_injective : Function.Injective Hex32.toHex := by
  intro h h' heq
  have := congrArg Hex32.fromHex heq
  simpa using this

/-! ## Hash functions and signatures -/

/-- What the chain takes from its cryptographic libraries. -/
structure Crypto where
  blake3 : List UInt8 → Hex32
  sha256 : List UInt8 → Hex32
  /-- Why the bytes are not a point of the curve, for those that are not. -/
  keyError : Hex32 → Option String
  /-- Strict verification of a signature on a digest by a key. -/
  verify : Hex32 → Hex32 → Hex64 → Bool

/-- Hash functions that send everything to zero and a curve on which every key and every signature
is valid: enough to run the model on an example. -/
def Crypto.permissive : Crypto where
  blake3 _ := 0
  sha256 _ := 0
  keyError _ := none
  verify _ _ _ := true

/-- The bytes of a text. -/
def asBytes (s : String) : List UInt8 := utf8 s.toList

def signedEnvelopeSchema : String := "boole.signed.v1"

def digestNetworkTag : List UInt8 := asBytes "boole.signed.v1.network::"

structure SignedEnvelope where
  schema : String
  payload : Value
  pk : String
  signature : String
  networkId : Option String
deriving DecidableEq

/-- The bytes that are hashed for signing. -/
def digestInput (payload : Value) : Option String → List UInt8
  | none => canonicalize payload
  | some network => digestNetworkTag ++ (asBytes network ++ (asBytes "\n" ++ canonicalize payload))

def digestFor (cr : Crypto) (payload : Value) (networkId : Option String) : Hex32 :=
  cr.sha256 (digestInput payload networkId)

def decodeHex32 (input field : String) : Except String Hex32 := do
  ensure (input.utf8ByteSize = 64)
    ("bad_" ++ field ++ ": expected 64 hex chars, got " ++ toString input.utf8ByteSize)
  mapErr (fun _ => "bad_" ++ field ++ ": expected 64 lowercase hex chars") (Hex32.fromHex input)

def decodeHex64 (input field : String) : Except String Hex64 := do
  ensure (input.utf8ByteSize = 128)
    ("bad_" ++ field ++ ": expected 128 hex chars, got " ++ toString input.utf8ByteSize)
  okOr (Hex64.fromHex input) ("bad_" ++ field ++ ": expected 128 lowercase hex chars")

/-- `Ok(false)`: everything is well formed and the signature does not match. -/
def SignedEnvelope.verifyStrict (cr : Crypto) (self : SignedEnvelope) : Except String Bool := do
  let pk ← decodeHex32 self.pk "pk"
  let signature ← decodeHex64 self.signature "signature"
  match cr.keyError pk with
  | some err => throw ("bad_pk: ed25519 point invalid: " ++ err)
  | none => pure (cr.verify pk (digestFor cr self.payload self.networkId) signature)

/-- **What a verified envelope proves:** a signature by the key in it, on the digest of the payload
in it, for the network in it. -/
theorem SignedEnvelope.verifyStrict_eq_true {cr : Crypto} {e : SignedEnvelope}
    (h : e.verifyStrict cr = .ok true) : ∃ pk signature, Hex32.fromHex e.pk = .ok pk ∧
      Hex64.fromHex e.signature = some signature ∧
      cr.verify pk (digestFor cr e.payload e.networkId) signature = true := by
  simp only [SignedEnvelope.verifyStrict, bind_eq_ok, decodeHex32, decodeHex64, mapErr_eq_ok,
    okOr_eq_ok] at h
  obtain ⟨pk, ⟨_, _, hpk⟩, signature, ⟨_, _, hsig⟩, h⟩ := h
  refine ⟨pk, signature, hpk, hsig, ?_⟩
  split at h
  · simp at h
  · simpa using h

end Native
