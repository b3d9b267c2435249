import Boole.Library.Instances

/-!
# Core/Package — the walk over a proof package

`boole-core`'s `validator.rs`.  A package is a header, a name, two expressions and a list of
declarations.  The walk only checks that the bytes are laid out so, to a bounded depth, and counts
the declarations; the ceilings on bytes and declarations are the caller's.

    magic │ version │ arity │ name │ expr expr │ count │ (name expr expr)*
-/

namespace Core

def magic : List UInt8 := [0x50, 0x4f, 0x46, 0x50]

def formatVersionV1 : ℕ := 1

def formatVersionV2 : ℕ := 2

def maxWalkDepth : ℕ := 4096

inductive DecodeDetail
  | badMagic
  | unexpectedEof
  | unsupportedVersion (version : ℕ)
  | trailingBytes (position size : ℕ)
  | recursionLimit (whereTag : String) (limit : ℕ)
  | unknownTag (whereTag : String) (tag : UInt8)
deriving DecidableEq

inductive ValidationReason
  | tooLarge (size limit : ℕ)
  | tooManyDecls (declCount limit : ℕ)
  | decode (detail : DecodeDetail)
deriving DecidableEq

structure WalkResult where
  declCount : ℕ
  size : ℕ
  universeArity : ℕ
deriving DecidableEq

/-! ## The cursor

The state is the bytes that are left; a position is the length of the package less theirs. -/

abbrev Walk := StateT (List UInt8) (Except DecodeDetail)

namespace Cursor

def skip (n : ℕ) : Walk Unit := fun rest =>
  if rest.length < n then .error .unexpectedEof else .ok ((), rest.drop n)

def readByte : Walk UInt8
  | [] => .error .unexpectedEof
  | b :: rest => .ok (b, rest)

def readU32Le : Walk ℕ
  | a :: b :: c :: d :: rest =>
    .ok (a.toNat + 256 * (b.toNat + 256 * (c.toNat + 256 * d.toNat)), rest)
  | _ => .error .unexpectedEof

/-- `for _ in 0..k` -/
def repeated (body : Walk Unit) : ℕ → Walk Unit
  | 0 => pure ()
  | k + 1 => do
    body
    repeated body k

end Cursor

open Cursor

/-! ## What is walked

A walk that recurses is given what is left of the depth; none left is one level too deep. -/

def walkLevel : ℕ → Walk Unit
  | 0 => throw (.recursionLimit "CanonLevel" maxWalkDepth)
  | depth + 1 => do
    let tag ← readByte
    match tag with
    | 0x00 => pure ()
    | 0x01 => walkLevel depth
    | 0x02 | 0x03 =>
      walkLevel depth
      walkLevel depth
    | 0x04 =>
      let _ ← readU32Le
      pure ()
    | _ => throw (.unknownTag "CanonLevel" tag)

def walkLit : Walk Unit := do
  let tag ← readByte
  match tag with
  | 0x00 =>
    let _ ← readU32Le
    pure ()
  | 0x01 =>
    let n ← readU32Le
    skip n
  | _ => throw (.unknownTag "CanonLit" tag)

def walkName : Walk Unit := do
  let parts ← readU32Le
  repeated (do
    let len ← readU32Le
    skip len) parts

def walkOpaqueDigestExpr : Walk Unit := do
  let tag ← readByte
  if tag ≠ 0x19 then throw (.unknownTag "CanonExpr" tag)
  skip 32

def walkExpr (allowOpaqueDigest : Bool) : ℕ → Walk Unit
  | 0 => throw (.recursionLimit "CanonExpr" maxWalkDepth)
  | depth + 1 => do
    let tag ← readByte
    match tag, allowOpaqueDigest with
    | 0x10, _ =>
      let _ ← readU32Le
      pure ()
    | 0x19, true => skip 32
    | 0x11, _ => walkLevel (maxWalkDepth + 1)
    | 0x12, _ =>
      walkName
      let k ← readU32Le
      repeated (walkLevel (maxWalkDepth + 1)) k
    | 0x13, _ | 0x14, _ | 0x15, _ =>
      walkExpr allowOpaqueDigest depth
      walkExpr allowOpaqueDigest depth
    | 0x16, _ =>
      walkExpr allowOpaqueDigest depth
      walkExpr allowOpaqueDigest depth
      walkExpr allowOpaqueDigest depth
    | 0x17, _ => walkLit
    | 0x18, _ =>
      walkName
      let _ ← readU32Le
      walkExpr allowOpaqueDigest depth
    | _, _ => throw (.unknownTag "CanonExpr" tag)

def walkDecl (version : ℕ) : Walk Unit := do
  walkName
  walkExpr (version == formatVersionV2) (maxWalkDepth + 1)
  walkExpr (version == formatVersionV2) (maxWalkDepth + 1)

/-- The fields after the magic number: the arity and the number of declarations. -/
def walkFields : Walk (ℕ × ℕ) := do
  let version ← readU32Le
  if version ≠ formatVersionV1 ∧ version ≠ formatVersionV2 then throw (.unsupportedVersion version)
  let universeArity ← readU32Le
  walkName
  if version = formatVersionV1 then
    walkExpr false (maxWalkDepth + 1)
    walkExpr false (maxWalkDepth + 1)
  else
    walkOpaqueDigestExpr
    walkOpaqueDigestExpr
  let declCount ← readU32Le
  repeated (walkDecl version) declCount
  pure (universeArity, declCount)

def walkPackage (bytes : List UInt8) : Except DecodeDetail WalkResult := do
  if bytes.length < 12 then throw .unexpectedEof
  if bytes.take 4 ≠ magic then throw .badMagic
  let ((universeArity, declCount), rest) ← walkFields (bytes.drop 4)
  if rest ≠ [] then throw (.trailingBytes (bytes.length - rest.length) bytes.length)
  pure ⟨declCount, bytes.length, universeArity⟩

/-- The ceiling on declarations is narrowed to 32 bits before it is compared. -/
def validateProofPackageWithLimits (bytes : List UInt8) (maxProofBytes maxDecls : ℕ) :
    Except ValidationReason WalkResult := do
  if maxProofBytes < bytes.length then throw (.tooLarge bytes.length maxProofBytes)
  let walked ← match walkPackage bytes with
    | .ok walked => pure walked
    | .error detail => throw (.decode detail)
  if maxProofBytes < walked.size then throw (.tooLarge walked.size maxProofBytes)
  if maxDecls % 2 ^ 32 < walked.declCount then throw (.tooManyDecls walked.declCount maxDecls)
  pure walked

end Core
