import Boole.Core.PackageGrammar
import Boole.Library.Fallible

/-!
# Core/PackageCursor — the walk by position

`validator.rs` walks with a position into the package.  It asks for `n` bytes (`ensure`) and then
indexes the slice, and an index past the end would stop the process.  Here is that walk, with the
index that can fail as an outcome of its own, next to the walk over the bytes that are left:

    position:  pos  ──walk──▶  pos'          rest = bytes.drop pos
                │               │
    rest:     rest  ──walk──▶ rest'

**The two go in step** (`walkPackage_inStep`), so the walk by position never indexes out of bounds.
-/

namespace Core

open Library

/-- How a walk by position stops: with the source's error, or at an index that does not exist. -/
inductive Fault
  | decode (detail : DecodeDetail)
  | outOfBounds (index : ℕ)
deriving DecidableEq

namespace Positioned

abbrev Walk := StateT ℕ (Except Fault)

section

variable (bytes : List UInt8)

/-! ## The cursor -/

def ensure (n : ℕ) : Walk Unit := fun pos =>
  if bytes.length < pos + n then .error (.decode .unexpectedEof) else .ok ((), pos)

/-- `bytes[i]` -/
def index (i : ℕ) : Walk UInt8 := fun pos =>
  match bytes[i]? with
  | some b => .ok (b, pos)
  | none => .error (.outOfBounds i)

def readByte : Walk UInt8 := do
  ensure bytes 1
  let pos ← get
  let out ← index bytes pos
  set (pos + 1)
  pure out

def readU32Le : Walk ℕ := do
  ensure bytes 4
  let pos ← get
  let a ← index bytes pos
  let b ← index bytes (pos + 1)
  let c ← index bytes (pos + 2)
  let d ← index bytes (pos + 3)
  set (pos + 4)
  pure (a.toNat + 256 * (b.toNat + 256 * (c.toNat + 256 * d.toNat)))

def skip (n : ℕ) : Walk Unit := do
  ensure bytes n
  modify (· + n)

def repeated (body : Walk Unit) : ℕ → Walk Unit
  | 0 => pure ()
  | k + 1 => do
    body
    repeated body k

/-! ## The walk -/

def walkLevel : ℕ → Walk Unit
  | 0 => throw (.decode (.recursionLimit "CanonLevel" maxWalkDepth))
  | depth + 1 => do
    let tag ← readByte bytes
    match tag with
    | 0x00 => pure ()
    | 0x01 => walkLevel depth
    | 0x02 | 0x03 =>
      walkLevel depth
      walkLevel depth
    | 0x04 =>
      let _ ← readU32Le bytes
      pure ()
    | _ => throw (.decode (.unknownTag "CanonLevel" tag))

def walkLit : Walk Unit := do
  let tag ← readByte bytes
  match tag with
  | 0x00 =>
    let _ ← readU32Le bytes
    pure ()
  | 0x01 =>
    let n ← readU32Le bytes
    skip bytes n
  | _ => throw (.decode (.unknownTag "CanonLit" tag))

def walkName : Walk Unit := do
  let parts ← readU32Le bytes
  repeated (do
    let len ← readU32Le bytes
    skip bytes len) parts

def walkOpaqueDigestExpr : Walk Unit := do
  let tag ← readByte bytes
  if tag ≠ 0x19 then throw (.decode (.unknownTag "CanonExpr" tag))
  skip bytes 32

def walkExpr (allowOpaqueDigest : Bool) : ℕ → Walk Unit
  | 0 => throw (.decode (.recursionLimit "CanonExpr" maxWalkDepth))
  | depth + 1 => do
    let tag ← readByte bytes
    match tag, allowOpaqueDigest with
    | 0x10, _ =>
      let _ ← readU32Le bytes
      pure ()
    | 0x19, true => skip bytes 32
    | 0x11, _ => walkLevel bytes (maxWalkDepth + 1)
    | 0x12, _ =>
      walkName bytes
      let k ← readU32Le bytes
      repeated (walkLevel bytes (maxWalkDepth + 1)) k
    | 0x13, _ | 0x14, _ | 0x15, _ =>
      walkExpr allowOpaqueDigest depth
      walkExpr allowOpaqueDigest depth
    | 0x16, _ =>
      walkExpr allowOpaqueDigest depth
      walkExpr allowOpaqueDigest depth
      walkExpr allowOpaqueDigest depth
    | 0x17, _ => walkLit bytes
    | 0x18, _ =>
      walkName bytes
      let _ ← readU32Le bytes
      walkExpr allowOpaqueDigest depth
    | _, _ => throw (.decode (.unknownTag "CanonExpr" tag))

def walkDecl (version : ℕ) : Walk Unit := do
  walkName bytes
  walkExpr bytes (version == formatVersionV2) (maxWalkDepth + 1)
  walkExpr bytes (version == formatVersionV2) (maxWalkDepth + 1)

def walkFields : Walk (ℕ × ℕ) := do
  let version ← readU32Le bytes
  if version ≠ formatVersionV1 ∧ version ≠ formatVersionV2 then
    throw (.decode (.unsupportedVersion version))
  let universeArity ← readU32Le bytes
  walkName bytes
  if version = formatVersionV1 then
    walkExpr bytes false (maxWalkDepth + 1)
    walkExpr bytes false (maxWalkDepth + 1)
  else
    walkOpaqueDigestExpr bytes
    walkOpaqueDigestExpr bytes
  let declCount ← readU32Le bytes
  repeated (walkDecl bytes version) declCount
  pure (universeArity, declCount)

end

/-- The slice `bytes[0..4]` is there: it is read after the length was checked. -/
def walkPackage (bytes : List UInt8) : Except Fault WalkResult := do
  if bytes.length < 12 then throw (.decode .unexpectedEof)
  if bytes.take 4 ≠ magic then throw (.decode .badMagic)
  let ((universeArity, declCount), pos) ← (do skip bytes 4; walkFields bytes) 0
  if pos ≠ bytes.length then throw (.decode (.trailingBytes pos bytes.length))
  pure ⟨declCount, pos, universeArity⟩

/-! ## In step with the bytes that are left -/

/-- The position and the bytes that are left. -/
def At (bytes rest : List UInt8) (pos : ℕ) : Prop := pos ≤ bytes.length ∧ rest = bytes.drop pos

variable {bytes : List UInt8}

theorem ensure_of_le {n pos : ℕ} (h : pos + n ≤ bytes.length) : ensure bytes n pos = .ok ((), pos) :=
  if_neg (Nat.not_lt_of_le h)

theorem ensure_of_lt {n pos : ℕ} (h : bytes.length < pos + n) :
    ensure bytes n pos = .error (.decode .unexpectedEof) :=
  if_pos h

/-- An index below the end is there. -/
theorem index_of_drop {i pos k j : ℕ} {b : UInt8} (h : (bytes.drop pos)[i]? = some b)
    (hk : pos + i = k) : index bytes k j = .ok (b, j) := by
  rw [List.getElem?_drop, hk] at h
  rw [index, h]

theorem At.short {n pos : ℕ} (hpos : pos ≤ bytes.length) (h : (bytes.drop pos).length < n) :
    bytes.length < pos + n := by
  rw [List.length_drop] at h
  omega

theorem At.advance {pos : ℕ} {l rest : List UInt8} (hpos : pos ≤ bytes.length)
    (h : bytes.drop pos = l ++ rest) : At bytes rest (pos + l.length) := by
  have hlen := congrArg List.length h
  rw [List.length_drop, List.length_append] at hlen
  refine ⟨by omega, ?_⟩
  rw [← List.drop_drop, h, List.drop_left]

theorem readByte_inStep : InStep (At bytes) .decode Cursor.readByte (readByte bytes) := by
  rintro _ pos ⟨hpos, rfl⟩
  cases hrest : bytes.drop pos with
  | nil =>
    have hshort := At.short (n := 1) hpos (by simp [hrest])
    exact .inr ⟨.unexpectedEof, rfl, bind_apply_error (ensure_of_lt hshort)⟩
  | cons b rest =>
    have hat : At bytes rest (pos + 1) := At.advance (l := [b]) hpos hrest
    refine .inl ⟨b, rest, pos + 1, rfl, ?_, hat⟩
    have hb : (bytes.drop pos)[0]? = some b := by rw [hrest]; rfl
    rw [readByte, bind_apply_ok (ensure_of_le hat.1), bind_apply_ok (a := pos) rfl,
      bind_apply_ok (index_of_drop hb (Nat.add_zero pos))]
    rfl

theorem readU32Le_inStep : InStep (At bytes) .decode Cursor.readU32Le (readU32Le bytes) := by
  rintro _ pos ⟨hpos, rfl⟩
  by_cases hlen : (bytes.drop pos).length < 4
  · refine .inr ⟨.unexpectedEof, ?_, bind_apply_error (ensure_of_lt (At.short hpos hlen))⟩
    match hrest : bytes.drop pos with
    | [] | [_] | [_, _] | [_, _, _] => rfl
    | a :: b :: c :: d :: rest =>
      simp only [hrest, List.length_cons] at hlen
      omega
  · match hrest : bytes.drop pos with
    | [] | [_] | [_, _] | [_, _, _] => simp [hrest] at hlen
    | a :: b :: c :: d :: rest =>
      have hat : At bytes rest (pos + 4) := At.advance (l := [a, b, c, d]) hpos hrest
      refine .inl ⟨_, rest, pos + 4, rfl, ?_, hat⟩
      have ha : (bytes.drop pos)[0]? = some a := by rw [hrest]; rfl
      have hb : (bytes.drop pos)[1]? = some b := by rw [hrest]; rfl
      have hc : (bytes.drop pos)[2]? = some c := by rw [hrest]; rfl
      have hd : (bytes.drop pos)[3]? = some d := by rw [hrest]; rfl
      rw [readU32Le, bind_apply_ok (ensure_of_le hat.1), bind_apply_ok (a := pos) rfl,
        bind_apply_ok (index_of_drop ha (Nat.add_zero pos)), bind_apply_ok (index_of_drop hb rfl),
        bind_apply_ok (index_of_drop hc rfl), bind_apply_ok (index_of_drop hd rfl)]
      rfl

theorem skip_inStep (n : ℕ) : InStep (At bytes) .decode (Cursor.skip n) (skip bytes n) := by
  rintro _ pos ⟨hpos, rfl⟩
  by_cases hlen : (bytes.drop pos).length < n
  · exact .inr ⟨.unexpectedEof, if_pos hlen, bind_apply_error (ensure_of_lt (At.short hpos hlen))⟩
  · have hle : pos + n ≤ bytes.length := by
      rw [List.length_drop] at hlen
      omega
    refine .inl ⟨(), bytes.drop (pos + n), pos + n, ?_, bind_apply_ok (ensure_of_le hle), hle, rfl⟩
    rw [Cursor.skip, if_neg hlen, List.drop_drop]

theorem repeated_inStep {w : Core.Walk Unit} {c : Walk Unit} (h : InStep (At bytes) .decode w c) (k : ℕ) :
    InStep (At bytes) .decode (Cursor.repeated w k) (repeated c k) := by
  induction k with
  | zero => exact inStep_pure ()
  | succ k ih => exact h.bind fun _ => ih

theorem discardU32Le_inStep :
    InStep (At bytes) .decode (do let _ ← Cursor.readU32Le; pure ())
      (do let _ ← readU32Le bytes; pure ()) :=
  readU32Le_inStep.bind fun _ => inStep_pure ()

theorem walkLevel_inStep (d : ℕ) :
    InStep (At bytes) .decode (Core.walkLevel d) (walkLevel bytes d) := by
  induction d with
  | zero => exact inStep_throw _
  | succ d ih =>
    refine readByte_inStep.bind fun tag => ?_
    split
    · exact inStep_pure ()
    · exact ih
    · exact ih.bind fun _ => ih
    · exact ih.bind fun _ => ih
    · exact discardU32Le_inStep
    · first | exact inStep_throw _ | (split <;> first | exact inStep_throw _ | contradiction)

theorem walkLit_inStep : InStep (At bytes) .decode Core.walkLit (walkLit bytes) := by
  refine readByte_inStep.bind fun tag => ?_
  split
  · exact discardU32Le_inStep
  · exact readU32Le_inStep.bind skip_inStep
  · first | exact inStep_throw _ | (split <;> first | exact inStep_throw _ | contradiction)

theorem walkName_inStep : InStep (At bytes) .decode Core.walkName (walkName bytes) :=
  readU32Le_inStep.bind fun _ => repeated_inStep (readU32Le_inStep.bind skip_inStep) _

theorem walkOpaqueDigestExpr_inStep :
    InStep (At bytes) .decode Core.walkOpaqueDigestExpr (walkOpaqueDigestExpr bytes) := by
  refine readByte_inStep.bind fun tag => ?_
  split_ifs
  · exact (inStep_throw _).bind fun _ => skip_inStep 32
  · exact skip_inStep 32

theorem walkExpr_inStep (allow : Bool) (d : ℕ) :
    InStep (At bytes) .decode (Core.walkExpr allow d) (walkExpr bytes allow d) := by
  induction d with
  | zero => exact inStep_throw _
  | succ d ih =>
    refine readByte_inStep.bind fun tag => ?_
    split
    · exact discardU32Le_inStep
    · exact skip_inStep 32
    · exact walkLevel_inStep _
    · exact walkName_inStep.bind fun _ => readU32Le_inStep.bind (repeated_inStep (walkLevel_inStep _))
    · exact ih.bind fun _ => ih
    · exact ih.bind fun _ => ih
    · exact ih.bind fun _ => ih
    · exact ih.bind fun _ => ih.bind fun _ => ih
    · exact walkLit_inStep
    · exact walkName_inStep.bind fun _ => readU32Le_inStep.bind fun _ => ih
    · first | exact inStep_throw _ | (split <;> first | exact inStep_throw _ | contradiction)

theorem walkDecl_inStep (version : ℕ) :
    InStep (At bytes) .decode (Core.walkDecl version) (walkDecl bytes version) :=
  walkName_inStep.bind fun _ => (walkExpr_inStep _ _).bind fun _ => walkExpr_inStep _ _

theorem walkFields_inStep : InStep (At bytes) .decode Core.walkFields (walkFields bytes) := by
  refine readU32Le_inStep.bind fun version => ?_
  have hdecls (universeArity : ℕ) : InStep (At bytes) .decode
      (do let declCount ← Cursor.readU32Le
          Cursor.repeated (Core.walkDecl version) declCount
          pure (universeArity, declCount))
      (do let declCount ← readU32Le bytes
          repeated (walkDecl bytes version) declCount
          pure (universeArity, declCount)) :=
    readU32Le_inStep.bind fun _ =>
      (repeated_inStep (walkDecl_inStep version) _).bind fun _ => inStep_pure _
  have hread : InStep (At bytes) .decode Cursor.readU32Le (readU32Le bytes) := readU32Le_inStep
  have hbody := hread.bind fun universeArity => walkName_inStep.bind fun _ =>
    InStep.ite (p := version = formatVersionV1)
      ((walkExpr_inStep false (maxWalkDepth + 1)).bind fun _ =>
        (walkExpr_inStep false (maxWalkDepth + 1)).bind fun _ => hdecls universeArity)
      (walkOpaqueDigestExpr_inStep.bind fun _ =>
        walkOpaqueDigestExpr_inStep.bind fun _ => hdecls universeArity)
  exact ((inStep_throw _).bind fun _ => hbody).ite hbody

/-- **The two walks say the same of every string.** -/
theorem walkPackage_inStep (bytes : List UInt8) :
    walkPackage bytes = (Core.walkPackage bytes).mapError .decode := by
  by_cases hlen : bytes.length < 12
  · simp only [walkPackage, Core.walkPackage, hlen]
    rfl
  by_cases hmagic : bytes.take 4 = magic
  · have hskip : skip bytes 4 0 = .ok ((), 4) :=
      bind_apply_ok (ensure_of_le (by omega))
    have hat : At bytes (bytes.drop 4) 4 := ⟨by omega, rfl⟩
    simp only [walkPackage, Core.walkPackage, hlen, hmagic, ne_eq, bind_apply_ok hskip]
    obtain ⟨⟨universeArity, declCount⟩, rest, pos, hw, hp, hpos, rfl⟩ | ⟨e, hw, hp⟩ :=
      walkFields_inStep _ _ hat
    · rw [hw, hp]
      by_cases hend : pos = bytes.length
      · subst hend
        simp only [ok_bind, List.drop_length]
        rfl
      · have hrest : bytes.drop pos ≠ [] := by
          rw [ne_eq, List.drop_eq_nil_iff]
          omega
        have hleft : bytes.length - (bytes.drop pos).length = pos := by
          rw [List.length_drop]
          omega
        simp only [ok_bind, hrest, hend, hleft]
        rfl
    · rw [hw, hp]
      rfl
  · simp only [walkPackage, Core.walkPackage, hlen, hmagic, ne_eq]
    rfl

theorem walkPackage_ne_outOfBounds (bytes : List UInt8) (i : ℕ) :
    walkPackage bytes ≠ .error (.outOfBounds i) := by
  rw [walkPackage_inStep]
  cases Core.walkPackage bytes <;> simp [Except.mapError]

end Positioned

open Grammar in
/-- **The walk decides the grammar.**  It accepts the encodings of the packages that are not nested
too deeply; a string encodes one package at most, with nothing after it; no byte outside the string
is read; and the limits of the caller come on top. -/
theorem package_grammar (bytes : List UInt8) :
    (∀ result, walkPackage bytes = .ok result ↔
      ∃ p : Package, p.Within maxWalkDepth ∧ p.encode = bytes ∧
        result = ⟨p.declCount, bytes.length, p.universeArity.toNat⟩) ∧
    (∀ (p q : Package) (rest rest' : List UInt8),
      p.encode ++ rest = q.encode ++ rest' → p = q ∧ rest = rest') ∧
    (Positioned.walkPackage bytes = (walkPackage bytes).mapError .decode ∧
      ∀ i, Positioned.walkPackage bytes ≠ .error (.outOfBounds i)) ∧
    ∀ maxProofBytes maxDecls, maxDecls < 2 ^ 32 → ∀ result,
      validateProofPackageWithLimits bytes maxProofBytes maxDecls = .ok result ↔
        ∃ p : Package, p.Within maxWalkDepth ∧ p.encode = bytes ∧ bytes.length ≤ maxProofBytes ∧
          p.declCount ≤ maxDecls ∧
          result = ⟨p.declCount, bytes.length, p.universeArity.toNat⟩ := by
  refine ⟨fun result => walkPackage_eq_ok, fun p q rest rest' h => Package.prefixFree h,
    ⟨Positioned.walkPackage_inStep bytes, Positioned.walkPackage_ne_outOfBounds bytes⟩, ?_⟩
  intro maxProofBytes maxDecls hdecls result
  rw [validateProofPackageWithLimits_eq_ok, walkPackage_eq_ok, Nat.mod_eq_of_lt hdecls]
  grind

open Grammar in
theorem package_grammar_leanBound :
    (0 : ℕ) < 2 ^ 32 ∧ ∃ bytes, validateProofPackageWithLimits bytes 86 0 = .ok ⟨0, 86, 0⟩ := by
  let digest : Digest := ⟨List.replicate 32 0, rfl⟩
  let p := leanBoundCanonPackage digest digest
  exact ⟨by decide, p.encode, ((package_grammar p.encode).2.2.2 86 0 (by decide) _).mpr
    ⟨p, leanBoundCanonPackage_within, rfl, Nat.le_of_eq length_leanBoundCanonPackage, Nat.le_refl 0,
      congrArg (fun size => WalkResult.mk 0 size 0) length_leanBoundCanonPackage.symm⟩⟩

end Core
