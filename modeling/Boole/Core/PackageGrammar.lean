import Boole.Core.Package
import Boole.Library.Recognizer

/-!
# Core/PackageGrammar — the packages that the walk accepts

The walk of `validator.rs` builds nothing: it says yes or no to a string of bytes.  Here is the
grammar it decides, as types: **a string is accepted exactly when it is the encoding of a package**
whose levels and expressions are not nested too deeply (`walkPackage_eq_ok`), and **it is the
encoding of one package only** (`Package.prefixFree`).

Tags and counts are attacker's data.  A count is a 32-bit number in front of what it counts, so the
grammar's lists are `Counted 4`; an opaque digest stands for an expression only where the version
allows it, so that is a parameter of the type of expressions.
-/

namespace Core

open Library Cursor

namespace Grammar

/-! ## Packages and their encodings -/

def u32Le (n : UInt32) : List UInt8 := leBytes 4 n.toNat

abbrev Bytes := Counted 4 UInt8

/-- The segments are strings to the prover; the walk does not look inside. -/
abbrev Name := Counted 4 Bytes

abbrev Digest := {l : List UInt8 // l.length = 32}

inductive Level
  | zero
  | succ (l : Level)
  | max (l r : Level)
  | imax (l r : Level)
  | param (index : UInt32)

inductive Lit
  | natVal (n : UInt32)
  | strVal (s : Bytes)

/-- An opaque digest stands for an expression only under the parameter. -/
inductive Expr (allowOpaqueDigest : Bool)
  | bvar (index : UInt32)
  | sort (l : Level)
  | const (name : Name) (levels : Counted 4 Level)
  | app (f a : Expr allowOpaqueDigest)
  | lam (type body : Expr allowOpaqueDigest)
  | forallE (type body : Expr allowOpaqueDigest)
  | letE (type value body : Expr allowOpaqueDigest)
  | lit (l : Lit)
  | proj (name : Name) (index : UInt32) (struct : Expr allowOpaqueDigest)
  | opaqueDigest (h : allowOpaqueDigest = true) (digest : Digest)

structure Decl (allowOpaqueDigest : Bool) where
  name : Name
  type : Expr allowOpaqueDigest
  value : Expr allowOpaqueDigest

inductive Package
  | v1 (universeArity : UInt32) (theoremName : Name) (type value : Expr false)
      (decls : Counted 4 (Decl false))
  | v2 (universeArity : UInt32) (theoremName : Name) (type value : Digest)
      (decls : Counted 4 (Decl true))

variable {allow : Bool}

def Bytes.encode : Bytes → List UInt8 := Counted.encode fun b => [b]

def Name.encode : Name → List UInt8 := Counted.encode Bytes.encode

def Digest.encode (digest : Digest) : List UInt8 := 0x19 :: digest.1

def Level.encode : Level → List UInt8
  | zero => [0x00]
  | succ l => 0x01 :: l.encode
  | max l r => 0x02 :: (l.encode ++ r.encode)
  | imax l r => 0x03 :: (l.encode ++ r.encode)
  | param index => 0x04 :: u32Le index

def Lit.encode : Lit → List UInt8
  | natVal n => 0x00 :: u32Le n
  | strVal s => 0x01 :: Bytes.encode s

def Expr.encode : Expr allow → List UInt8
  | bvar index => 0x10 :: u32Le index
  | sort l => 0x11 :: l.encode
  | const name levels => 0x12 :: (Name.encode name ++ Counted.encode Level.encode levels)
  | app f a => 0x13 :: (f.encode ++ a.encode)
  | lam type body => 0x14 :: (type.encode ++ body.encode)
  | forallE type body => 0x15 :: (type.encode ++ body.encode)
  | letE type value body => 0x16 :: (type.encode ++ (value.encode ++ body.encode))
  | lit l => 0x17 :: l.encode
  | proj name index struct => 0x18 :: (Name.encode name ++ (u32Le index ++ struct.encode))
  | opaqueDigest _ digest => Digest.encode digest

def Decl.encode (decl : Decl allow) : List UInt8 :=
  Name.encode decl.name ++ (decl.type.encode ++ decl.value.encode)

def Package.encode : Package → List UInt8
  | v1 universeArity theoremName type value decls =>
    magic ++ (u32Le 1 ++ (u32Le universeArity ++ (Name.encode theoremName ++
      (type.encode ++ (value.encode ++ Counted.encode Decl.encode decls)))))
  | v2 universeArity theoremName type value decls =>
    magic ++ (u32Le 2 ++ (u32Le universeArity ++ (Name.encode theoremName ++
      (Digest.encode type ++ (Digest.encode value ++ Counted.encode Decl.encode decls)))))

/-! ## Nesting -/

/-- How many levels a level is nested below its root. -/
def Level.depth : Level → ℕ
  | zero | param _ => 0
  | succ l => l.depth + 1
  | max l r | imax l r => Max.max l.depth r.depth + 1

/-- How many expressions an expression is nested below its root. -/
def Expr.depth : Expr allow → ℕ
  | bvar _ | sort _ | const .. | lit _ | opaqueDigest .. => 0
  | app f a => Max.max f.depth a.depth + 1
  | lam type body | forallE type body => Max.max type.depth body.depth + 1
  | letE type value body => Max.max type.depth (Max.max value.depth body.depth) + 1
  | proj _ _ struct => struct.depth + 1

/-- The levels anywhere in an expression; each of them is nested from zero again. -/
def Expr.levels : Expr allow → List Level
  | bvar _ | lit _ | opaqueDigest .. => []
  | sort l => [l]
  | const _ levels => levels.1
  | app f a => f.levels ++ a.levels
  | lam type body | forallE type body => type.levels ++ body.levels
  | letE type value body => type.levels ++ (value.levels ++ body.levels)
  | proj _ _ struct => struct.levels

def Expr.Within (n : ℕ) (e : Expr allow) : Prop := e.depth ≤ n ∧ ∀ l ∈ e.levels, l.depth ≤ n

def Decl.Within (n : ℕ) (decl : Decl allow) : Prop := decl.type.Within n ∧ decl.value.Within n

/-- No level and no expression of the package is nested deeper than `n`. -/
def Package.Within (n : ℕ) : Package → Prop
  | v1 _ _ type value decls => type.Within n ∧ value.Within n ∧ ∀ d ∈ decls.1, d.Within n
  | v2 _ _ _ _ decls => ∀ d ∈ decls.1, d.Within n

def Package.universeArity : Package → UInt32
  | v1 universeArity .. | v2 universeArity .. => universeArity

def Package.declCount : Package → ℕ
  | v1 _ _ _ _ decls => decls.1.length
  | v2 _ _ _ _ decls => decls.1.length

/-! ## An encoding determines what it encodes -/

theorem prefixFree_u32Le : PrefixFree u32Le := by
  refine prefixFree_of_length (n := 4) ?_ fun n => length_leBytes 4 n.toNat
  intro n m h
  exact UInt32.toNat_inj.mp (leBytes_inj n.toNat_lt m.toNat_lt h)

theorem Bytes.prefixFree : PrefixFree Bytes.encode :=
  Counted.prefixFree (prefixFree_of_length List.singleton_injective fun _ => rfl)

theorem Name.prefixFree : PrefixFree Name.encode := Counted.prefixFree Bytes.prefixFree

theorem Digest.prefixFree : PrefixFree Digest.encode := by
  refine prefixFree_of_length (n := 33) ?_ fun d => congrArg (· + 1) d.2
  intro d d' h
  exact Subtype.ext (List.cons.inj h).2

-- Two values with different tags differ in the first byte; what is left is one case per constructor.
theorem Level.prefixFree : PrefixFree Level.encode := by
  intro a
  induction a <;> intro b r r' h <;> cases b <;> try exact absurd (List.cons.inj h).1 (by decide)
  case zero.zero => exact ⟨rfl, (List.cons.inj h).2⟩
  case succ.succ ih _ =>
    obtain ⟨rfl, hr⟩ := ih (List.cons.inj h).2
    exact ⟨rfl, hr⟩
  case max.max ihl ihr _ _ | imax.imax ihl ihr _ _ =>
    simp only [encode, List.cons_append, List.cons.injEq, true_and, List.append_assoc] at h
    obtain ⟨rfl, hrest⟩ := ihl h
    obtain ⟨rfl, hr⟩ := ihr hrest
    exact ⟨rfl, hr⟩
  case param.param =>
    obtain ⟨rfl, hr⟩ := prefixFree_u32Le (List.cons.inj h).2
    exact ⟨rfl, hr⟩

theorem Lit.prefixFree : PrefixFree Lit.encode := by
  intro a b r r' h
  cases a <;> cases b <;> try exact absurd (List.cons.inj h).1 (by decide)
  case natVal.natVal =>
    obtain ⟨rfl, hr⟩ := prefixFree_u32Le (List.cons.inj h).2
    exact ⟨rfl, hr⟩
  case strVal.strVal =>
    obtain ⟨rfl, hr⟩ := Bytes.prefixFree (List.cons.inj h).2
    exact ⟨rfl, hr⟩

theorem Expr.prefixFree : PrefixFree (Expr.encode : Expr allow → List UInt8) := by
  intro a
  induction a <;> intro b r r' h <;> cases b <;> try exact absurd (List.cons.inj h).1 (by decide)
  all_goals
    simp only [encode, List.cons_append, List.cons.injEq, true_and, List.append_assoc] at h
  case bvar.bvar =>
    obtain ⟨rfl, hr⟩ := prefixFree_u32Le h
    exact ⟨rfl, hr⟩
  case sort.sort =>
    obtain ⟨rfl, hr⟩ := Level.prefixFree h
    exact ⟨rfl, hr⟩
  case const.const =>
    obtain ⟨rfl, hrest⟩ := Name.prefixFree h
    obtain ⟨rfl, hr⟩ := Counted.prefixFree Level.prefixFree hrest
    exact ⟨rfl, hr⟩
  case lit.lit =>
    obtain ⟨rfl, hr⟩ := Lit.prefixFree h
    exact ⟨rfl, hr⟩
  case proj.proj ih _ _ _ =>
    obtain ⟨rfl, hrest⟩ := Name.prefixFree h
    obtain ⟨rfl, hrest'⟩ := prefixFree_u32Le hrest
    obtain ⟨rfl, hr⟩ := ih hrest'
    exact ⟨rfl, hr⟩
  case letE.letE iht ihv ihb _ _ _ =>
    obtain ⟨rfl, hrest⟩ := iht h
    obtain ⟨rfl, hrest'⟩ := ihv hrest
    obtain ⟨rfl, hr⟩ := ihb hrest'
    exact ⟨rfl, hr⟩
  case opaqueDigest.opaqueDigest =>
    obtain ⟨rfl, hr⟩ := Digest.prefixFree h
    exact ⟨rfl, hr⟩
  -- the three binary constructors
  all_goals
    rename_i ih ih' _ _
    obtain ⟨rfl, hrest⟩ := ih h
    obtain ⟨rfl, hr⟩ := ih' hrest
    exact ⟨rfl, hr⟩

theorem Decl.prefixFree : PrefixFree (Decl.encode : Decl allow → List UInt8) := by
  rintro ⟨name, type, value⟩ ⟨name', type', value'⟩ r r' h
  simp only [encode, List.append_assoc] at h
  obtain ⟨rfl, htype⟩ := Name.prefixFree h
  obtain ⟨rfl, hvalue⟩ := Expr.prefixFree htype
  obtain ⟨rfl, hr⟩ := Expr.prefixFree hvalue
  exact ⟨rfl, hr⟩

/-- **A stream starts with at most one package.** -/
theorem Package.prefixFree : PrefixFree Package.encode := by
  intro p q r r' h
  cases p <;> cases q <;> simp only [encode, List.append_assoc, List.append_cancel_left_eq] at h
  case v1.v1 =>
    obtain ⟨rfl, hname⟩ := prefixFree_u32Le h
    obtain ⟨rfl, htype⟩ := Name.prefixFree hname
    obtain ⟨rfl, hvalue⟩ := Expr.prefixFree htype
    obtain ⟨rfl, hdecls⟩ := Expr.prefixFree hvalue
    obtain ⟨rfl, hr⟩ := Counted.prefixFree Decl.prefixFree hdecls
    exact ⟨rfl, hr⟩
  case v2.v2 =>
    obtain ⟨rfl, hname⟩ := prefixFree_u32Le h
    obtain ⟨rfl, htype⟩ := Name.prefixFree hname
    obtain ⟨rfl, hvalue⟩ := Digest.prefixFree htype
    obtain ⟨rfl, hdecls⟩ := Digest.prefixFree hvalue
    obtain ⟨rfl, hr⟩ := Counted.prefixFree Decl.prefixFree hdecls
    exact ⟨rfl, hr⟩
  -- the versions differ
  all_goals exact absurd (prefixFree_u32Le h).1 (by decide)

/-! ## The parts of the walk -/

theorem readByte_eq_ok {s s' : List UInt8} {b : UInt8} :
    readByte s = .ok (b, s') ↔ s = b :: s' := by
  cases s <;> simp [readByte]

theorem readU32Le_eq_ok (s : List UInt8) (n : ℕ) (s' : List UInt8) :
    readU32Le s = .ok (n, s') ↔ n < 256 ^ 4 ∧ s = leBytes 4 n ++ s' := by
  constructor
  · intro h
    unfold readU32Le at h
    split at h
    · rename_i a b c d rest
      obtain ⟨rfl, rfl⟩ := Prod.mk.inj (Except.ok.inj h)
      have ha := a.toNat_lt
      have hb := b.toNat_lt
      have hc := c.toNat_lt
      have hd := d.toNat_lt
      have hlast : d.toNat = d.toNat + 256 * 0 := rfl
      refine ⟨by omega, ?_⟩
      rw [leBytes_cons, leBytes_cons, leBytes_cons, hlast, leBytes_cons]
      rfl
    · exact nomatch h
  · rintro ⟨hn, rfl⟩
    simp only [leBytes, List.cons_append, List.nil_append, readU32Le, UInt8.toNat_ofNat',
      Except.ok.injEq, Prod.mk.injEq, and_true]
    omega

theorem readU32Le_recognizes :
    Recognizes (do let _ ← readU32Le; pure ()) (fun _ : UInt32 => True) u32Le := by
  intro s s'
  simp only [Walker.bind_eq_ok, readU32Le_eq_ok, true_and]
  constructor
  · rintro ⟨n, t, ⟨hn, rfl⟩, ⟨⟩⟩
    exact ⟨UInt32.ofNatLT n hn, by simp [u32Le]⟩
  · rintro ⟨n, rfl⟩
    exact ⟨n.toNat, s', ⟨n.toNat_lt, rfl⟩, rfl⟩

theorem readU32Le_then {α : Type} {w : Walk Unit} {P : α → Prop} {f : α → List UInt8}
    (h : Recognizes w P f) :
    Recognizes (do let _ ← readU32Le; w) (fun x : UInt32 × α => True ∧ P x.2)
      (fun x => u32Le x.1 ++ f x.2) := by
  have hassoc : (do let _ ← readU32Le; w) = (do (do let _ ← readU32Le; pure ()); w) := by simp
  rw [hassoc]
  exact readU32Le_recognizes.seq h

theorem skip_recognizes (n : ℕ) :
    Recognizes (skip n) (fun l : List UInt8 => l.length = n) id := by
  intro s s'
  simp only [skip, id]
  split_ifs with hn
  · constructor
    · rintro ⟨⟩
    · rintro ⟨l, rfl, rfl⟩
      rw [List.length_append] at hn
      omega
  · constructor
    · rintro ⟨⟩
      exact ⟨s.take n, List.length_take_of_le (Nat.le_of_not_lt hn), (List.take_append_drop n s).symm⟩
    · rintro ⟨l, rfl, rfl⟩
      simp

theorem repeated_recognizes {α : Type} {w : Walk Unit} {P : α → Prop} {f : α → List UInt8}
    (h : Recognizes w P f) (k : ℕ) :
    Recognizes (repeated w k) (fun l : List α => l.length = k ∧ ∀ x ∈ l, P x) (List.flatMap f) :=
  h.iterate rfl (fun _ => rfl) k

theorem counted_recognizes {α : Type} {w : Walk Unit} {P : α → Prop} {f : α → List UInt8}
    (h : Recognizes w P f) :
    Recognizes (readU32Le >>= repeated w) (fun c : Counted 4 α => ∀ x ∈ c.1, P x) (Counted.encode f) :=
  Recognizes.counted readU32Le_eq_ok (repeated_recognizes h)

theorem bytes_recognizes :
    Recognizes (readU32Le >>= skip) (fun _ : Bytes => True) Bytes.encode := by
  have hskip (k : ℕ) : Recognizes (skip k)
      (fun l : List UInt8 => l.length = k ∧ ∀ x ∈ l, True) (List.flatMap fun b => [b]) := by
    simpa [Recognizes] using skip_recognizes k
  simpa [Bytes.encode] using Recognizes.counted readU32Le_eq_ok hskip

theorem walkName_recognizes : Recognizes walkName (fun _ : Name => True) Name.encode := by
  have h := counted_recognizes bytes_recognizes
  simp only [implies_true] at h
  exact h

theorem walkLevel_recognizes (d : ℕ) :
    Recognizes (walkLevel d) (fun l : Level => l.depth < d) Level.encode := by
  induction d with
  | zero =>
    intro s s'
    simp [walkLevel, Walker.throw_ne_ok]
  | succ d ih =>
    intro s s'
    rw [walkLevel, Walker.bind_eq_ok]
    constructor
    · rintro ⟨tag, s, hs, h⟩
      obtain rfl := readByte_eq_ok.mp hs
      split at h
      · obtain ⟨⟩ := Walker.pure_eq_ok.mp h
        exact ⟨.zero, Nat.succ_pos d, rfl⟩
      · obtain ⟨l, hl, rfl⟩ := (ih _ _).mp h
        exact ⟨.succ l, Nat.succ_lt_succ hl, rfl⟩
      · obtain ⟨⟨l, r⟩, ⟨hl, hr⟩, rfl⟩ := (ih.seq ih _ _).mp h
        exact ⟨.max l r, Nat.succ_lt_succ (Nat.max_lt.mpr ⟨hl, hr⟩), rfl⟩
      · obtain ⟨⟨l, r⟩, ⟨hl, hr⟩, rfl⟩ := (ih.seq ih _ _).mp h
        exact ⟨.imax l r, Nat.succ_lt_succ (Nat.max_lt.mpr ⟨hl, hr⟩), rfl⟩
      · obtain ⟨i, -, rfl⟩ := (readU32Le_recognizes _ _).mp h
        exact ⟨.param i, Nat.succ_pos d, rfl⟩
      · exact (Walker.throw_ne_ok.mp h).elim
    · rintro ⟨l, hl, rfl⟩
      cases l <;> refine ⟨_, _, readByte_eq_ok.mpr rfl, ?_⟩
      case zero => exact Walker.pure_eq_ok.mpr rfl
      case succ l => exact (ih _ _).mpr ⟨l, Nat.lt_of_succ_lt_succ hl, rfl⟩
      case max l r | imax l r =>
        have hlr := Nat.max_lt.mp (Nat.lt_of_succ_lt_succ hl)
        exact (ih.seq ih _ _).mpr ⟨(l, r), hlr, rfl⟩
      case param i => exact (readU32Le_recognizes _ _).mpr ⟨i, trivial, rfl⟩

theorem walkLit_recognizes : Recognizes walkLit (fun _ : Lit => True) Lit.encode := by
  intro s s'
  rw [walkLit, Walker.bind_eq_ok]
  constructor
  · rintro ⟨tag, s, hs, h⟩
    obtain rfl := readByte_eq_ok.mp hs
    split at h
    · obtain ⟨n, -, rfl⟩ := (readU32Le_recognizes _ _).mp h
      exact ⟨.natVal n, trivial, rfl⟩
    · obtain ⟨b, -, rfl⟩ := (bytes_recognizes _ _).mp h
      exact ⟨.strVal b, trivial, rfl⟩
    · exact (Walker.throw_ne_ok.mp h).elim
  · rintro ⟨l, -, rfl⟩
    cases l <;> refine ⟨_, _, readByte_eq_ok.mpr rfl, ?_⟩
    case natVal n => exact (readU32Le_recognizes _ _).mpr ⟨n, trivial, rfl⟩
    case strVal b => exact (bytes_recognizes _ _).mpr ⟨b, trivial, rfl⟩

theorem skip_digest_recognizes :
    Recognizes (skip 32) (fun _ : Digest => True) Subtype.val := by
  intro s s'
  rw [skip_recognizes]
  constructor
  · rintro ⟨l, hl, rfl⟩
    exact ⟨⟨l, hl⟩, trivial, rfl⟩
  · rintro ⟨d, -, rfl⟩
    exact ⟨d.1, d.2, rfl⟩

theorem walkOpaqueDigestExpr_recognizes :
    Recognizes walkOpaqueDigestExpr (fun _ : Digest => True) Digest.encode := by
  intro s s'
  rw [walkOpaqueDigestExpr, Walker.bind_eq_ok]
  constructor
  · rintro ⟨tag, s, hs, h⟩
    obtain rfl := readByte_eq_ok.mp hs
    split_ifs at h with htag
    · exact nomatch h
    · obtain rfl := not_not.mp htag
      obtain ⟨digest, -, rfl⟩ := (skip_digest_recognizes _ _).mp h
      exact ⟨digest, trivial, rfl⟩
  · rintro ⟨d, -, rfl⟩
    exact ⟨_, _, readByte_eq_ok.mpr rfl, (skip_digest_recognizes _ _).mpr ⟨d, trivial, rfl⟩⟩

/-! ## Expressions -/

/-- What a walk with `d` left of the depth goes over; a level starts again at the full depth. -/
def Expr.Fits (d : ℕ) (e : Expr allow) : Prop :=
  e.depth < d ∧ ∀ l ∈ e.levels, l.depth < maxWalkDepth + 1

variable {d : ℕ}

theorem fits_sort {l : Level} :
    (Expr.sort l : Expr allow).Fits (d + 1) ↔ l.depth < maxWalkDepth + 1 := by
  simp [Expr.Fits, Expr.depth, Expr.levels]

theorem fits_const {name : Name} {levels : Counted 4 Level} :
    (Expr.const name levels : Expr allow).Fits (d + 1) ↔ ∀ l ∈ levels.1, l.depth < maxWalkDepth + 1 := by
  simp [Expr.Fits, Expr.depth, Expr.levels]

/-- The same for the other two binary constructors, by definition. -/
theorem fits_app {f a : Expr allow} : (Expr.app f a).Fits (d + 1) ↔ f.Fits d ∧ a.Fits d := by
  simp only [Expr.Fits, Expr.depth, Expr.levels, Nat.succ_lt_succ_iff, Nat.max_lt,
    List.forall_mem_append]
  exact and_and_and_comm

theorem fits_letE {t v b : Expr allow} :
    (Expr.letE t v b).Fits (d + 1) ↔ t.Fits d ∧ v.Fits d ∧ b.Fits d := by
  simp only [Expr.Fits, Expr.depth, Expr.levels, Nat.succ_lt_succ_iff, Nat.max_lt,
    List.forall_mem_append]
  tauto

theorem fits_proj {name : Name} {i : UInt32} {e : Expr allow} :
    (Expr.proj name i e).Fits (d + 1) ↔ e.Fits d := by
  simp only [Expr.Fits, Expr.depth, Expr.levels, Nat.succ_lt_succ_iff]

theorem walkExpr_recognizes (allow : Bool) (d : ℕ) :
    Recognizes (walkExpr allow d) (fun e : Expr allow => e.Fits d) Expr.encode := by
  induction d with
  | zero =>
    intro s s'
    simp [walkExpr, Walker.throw_ne_ok, Expr.Fits]
  | succ d ih =>
    intro s s'
    rw [walkExpr, Walker.bind_eq_ok]
    constructor
    · rintro ⟨tag, s, hs, h⟩
      obtain rfl := readByte_eq_ok.mp hs
      split at h
      · obtain ⟨i, -, rfl⟩ := (readU32Le_recognizes _ _).mp h
        exact ⟨.bvar i, ⟨Nat.succ_pos d, fun _ hl => nomatch hl⟩, rfl⟩
      · obtain ⟨digest, -, rfl⟩ := (skip_digest_recognizes _ _).mp h
        exact ⟨.opaqueDigest rfl digest, ⟨Nat.succ_pos d, fun _ hl => nomatch hl⟩, rfl⟩
      · obtain ⟨l, hl, rfl⟩ := (walkLevel_recognizes _ _ _).mp h
        exact ⟨.sort l, fits_sort.mpr hl, rfl⟩
      · obtain ⟨⟨name, levels⟩, ⟨-, hl⟩, rfl⟩ :=
          (walkName_recognizes.seq (counted_recognizes (walkLevel_recognizes _)) _ _).mp h
        exact ⟨.const name levels, fits_const.mpr hl, rfl⟩
      · obtain ⟨⟨f, a⟩, hfa, rfl⟩ := (ih.seq ih _ _).mp h
        exact ⟨.app f a, fits_app.mpr hfa, rfl⟩
      · obtain ⟨⟨f, a⟩, hfa, rfl⟩ := (ih.seq ih _ _).mp h
        exact ⟨.lam f a, fits_app.mpr hfa, rfl⟩
      · obtain ⟨⟨f, a⟩, hfa, rfl⟩ := (ih.seq ih _ _).mp h
        exact ⟨.forallE f a, fits_app.mpr hfa, rfl⟩
      · obtain ⟨⟨t, v, b⟩, htvb, rfl⟩ := (ih.seq (ih.seq ih) _ _).mp h
        exact ⟨.letE t v b, fits_letE.mpr htvb, rfl⟩
      · obtain ⟨l, -, rfl⟩ := (walkLit_recognizes _ _).mp h
        exact ⟨.lit l, ⟨Nat.succ_pos d, fun _ hl => nomatch hl⟩, rfl⟩
      · obtain ⟨⟨name, i, e⟩, ⟨-, -, he⟩, rfl⟩ :=
          (walkName_recognizes.seq (readU32Le_then ih) _ _).mp h
        exact ⟨.proj name i e, fits_proj.mpr he, rfl⟩
      · exact (Walker.throw_ne_ok.mp h).elim
    · rintro ⟨e, he, rfl⟩
      cases e <;> refine ⟨_, _, readByte_eq_ok.mpr rfl, ?_⟩
      case bvar i => exact (readU32Le_recognizes _ _).mpr ⟨i, trivial, rfl⟩
      case sort l => exact (walkLevel_recognizes _ _ _).mpr ⟨l, fits_sort.mp he, rfl⟩
      case const name levels =>
        exact (walkName_recognizes.seq (counted_recognizes (walkLevel_recognizes _)) _ _).mpr
          ⟨(name, levels), ⟨trivial, fits_const.mp he⟩, rfl⟩
      case app f a | lam f a | forallE f a =>
        exact (ih.seq ih _ _).mpr ⟨(f, a), fits_app.mp he, rfl⟩
      case letE t v b => exact (ih.seq (ih.seq ih) _ _).mpr ⟨(t, v, b), fits_letE.mp he, rfl⟩
      case lit l => exact (walkLit_recognizes _ _).mpr ⟨l, trivial, rfl⟩
      case proj name i e =>
        exact (walkName_recognizes.seq (readU32Le_then ih) _ _).mpr
          ⟨(name, i, e), ⟨trivial, trivial, fits_proj.mp he⟩, rfl⟩
      case opaqueDigest hallow digest =>
        clear he
        subst hallow
        exact (skip_digest_recognizes _ _).mpr ⟨digest, trivial, rfl⟩

/-! ## Declarations and packages -/

theorem Expr.fits_iff {e : Expr allow} : e.Fits (maxWalkDepth + 1) ↔ e.Within maxWalkDepth := by
  simp only [Fits, Within, Nat.lt_succ_iff]

theorem walkExpr_root (allow : Bool) :
    Recognizes (walkExpr allow (maxWalkDepth + 1)) (fun e : Expr allow => e.Within maxWalkDepth)
      Expr.encode := by
  simpa only [Expr.fits_iff] using walkExpr_recognizes allow (maxWalkDepth + 1)

theorem walkDecl_recognizes {version : ℕ} (hversion : (version == formatVersionV2) = allow) :
    Recognizes (walkDecl version) (fun decl : Decl allow => decl.Within maxWalkDepth) Decl.encode := by
  intro s s'
  rw [walkDecl, hversion, walkName_recognizes.seq ((walkExpr_root allow).seq (walkExpr_root allow))]
  constructor
  · rintro ⟨⟨name, type, value⟩, ⟨-, hwithin⟩, rfl⟩
    exact ⟨⟨name, type, value⟩, hwithin, rfl⟩
  · rintro ⟨⟨name, type, value⟩, hwithin, rfl⟩
    exact ⟨(name, type, value), ⟨trivial, hwithin⟩, rfl⟩

/-- The fields after the version; the versions differ in the walk over the theorem. -/
def walkBody (version : ℕ) (walkTheorem : Walk Unit) : Walk (ℕ × ℕ) := do
  let universeArity ← readU32Le
  walkName
  walkTheorem
  let declCount ← readU32Le
  repeated (walkDecl version) declCount
  pure (universeArity, declCount)

theorem walkFields_eq :
    walkFields = (do
      let version ← readU32Le
      if version = formatVersionV1 then
        walkBody formatVersionV1 (do
          walkExpr false (maxWalkDepth + 1)
          walkExpr false (maxWalkDepth + 1))
      else if version = formatVersionV2 then
        walkBody formatVersionV2 (do
          walkOpaqueDigestExpr
          walkOpaqueDigestExpr)
      else throw (.unsupportedVersion version)) := by
  rw [walkFields]
  congr 1
  funext version
  by_cases hv1 : version = formatVersionV1
  · simp [hv1, walkBody]
  · by_cases hv2 : version = formatVersionV2
    · simp [hv2, walkBody, formatVersionV1, formatVersionV2]
    · rw [if_pos ⟨hv1, hv2⟩, if_neg hv1, if_neg hv2]
      rfl

theorem walkBody_eq_ok {α : Type} {version : ℕ} (hversion : (version == formatVersionV2) = allow)
    {w : Walk Unit} {P : α → Prop} {f : α → List UInt8} (hw : Recognizes w P f)
    {s s' : List UInt8} {universeArity declCount : ℕ} :
    walkBody version w s = .ok ((universeArity, declCount), s') ↔
      ∃ (i : UInt32) (name : Name) (x : α) (decls : Counted 4 (Decl allow)),
        P x ∧ (∀ decl ∈ decls.1, decl.Within maxWalkDepth) ∧
        s = u32Le i ++ (Name.encode name ++ (f x ++ (Counted.encode Decl.encode decls ++ s'))) ∧
        universeArity = i.toNat ∧ declCount = decls.1.length := by
  have hdecls := repeated_recognizes (walkDecl_recognizes hversion)
  simp only [walkBody, Walker.bind_eq_ok, readU32Le_eq_ok, walkName_recognizes _ _, hw _ _,
    hdecls _ _ _]
  constructor
  · rintro ⟨n, _, ⟨hn, rfl⟩, -, _, ⟨name, -, rfl⟩, -, _, ⟨x, hx, rfl⟩, k, _, ⟨hk, rfl⟩, -, _,
      ⟨l, ⟨rfl, hl⟩, rfl⟩, ⟨⟩⟩
    refine ⟨UInt32.ofNatLT _ hn, name, x, ⟨l, hk⟩, hx, hl, ?_, rfl, rfl⟩
    rfl
  · rintro ⟨i, name, x, ⟨l, hk⟩, hx, hl, rfl, rfl, rfl⟩
    refine ⟨i.toNat, _, ⟨i.toNat_lt, rfl⟩, (), _, ⟨name, trivial, rfl⟩, (), _, ⟨x, hx, rfl⟩, l.length, _,
      ⟨hk, ?_⟩, (), _, ⟨l, ⟨rfl, hl⟩, rfl⟩, rfl⟩
    simp only [Counted.encode, List.append_assoc]

/-- The fields after the magic number. -/
theorem walkFields_eq_ok {s s' : List UInt8} {universeArity declCount : ℕ} :
    walkFields s = .ok ((universeArity, declCount), s') ↔
      ∃ p : Package, p.Within maxWalkDepth ∧ magic ++ s = p.encode ++ s' ∧
        universeArity = p.universeArity.toNat ∧ declCount = p.declCount := by
  have hallow1 : (formatVersionV1 == formatVersionV2) = false := rfl
  have hallow2 : (formatVersionV2 == formatVersionV2) = true := rfl
  have hv1 := (walkExpr_root false).seq (walkExpr_root false)
  have hv2 := walkOpaqueDigestExpr_recognizes.seq walkOpaqueDigestExpr_recognizes
  rw [walkFields_eq, Walker.bind_eq_ok]
  constructor
  · rintro ⟨version, s, hs, h⟩
    obtain ⟨-, rfl⟩ := (readU32Le_eq_ok _ _ _).mp hs
    split_ifs at h with hversion hversion
    · subst hversion
      obtain ⟨i, name, ⟨type, value⟩, decls, ⟨htype, hvalue⟩, hdecls, rfl, rfl, rfl⟩ :=
        (walkBody_eq_ok hallow1 hv1).mp h
      refine ⟨.v1 i name type value decls, ⟨htype, hvalue, hdecls⟩, ?_, rfl, rfl⟩
      simp only [Package.encode, List.append_assoc]
      rfl
    · subst hversion
      obtain ⟨i, name, ⟨type, value⟩, decls, -, hdecls, rfl, rfl, rfl⟩ := (walkBody_eq_ok hallow2 hv2).mp h
      refine ⟨.v2 i name type value decls, hdecls, ?_, rfl, rfl⟩
      simp only [Package.encode, List.append_assoc]
      rfl
    · exact (Walker.throw_ne_ok.mp h).elim
  · rintro ⟨p, hwithin, hs, rfl, rfl⟩
    cases p with
    | v1 i name type value decls =>
      simp only [Package.encode, List.append_assoc, List.append_cancel_left_eq] at hs
      obtain ⟨htype, hvalue, hdecls⟩ := hwithin
      refine ⟨1, _, (readU32Le_eq_ok _ _ _).mpr ⟨by decide, hs⟩, (walkBody_eq_ok hallow1 hv1).mpr
        ⟨i, name, (type, value), decls, ⟨htype, hvalue⟩, hdecls, ?_, rfl, rfl⟩⟩
      simp only [List.append_assoc]
    | v2 i name type value decls =>
      simp only [Package.encode, List.append_assoc, List.append_cancel_left_eq] at hs
      refine ⟨2, _, (readU32Le_eq_ok _ _ _).mpr ⟨by decide, hs⟩, (walkBody_eq_ok hallow2 hv2).mpr
        ⟨i, name, (type, value), decls, ⟨trivial, trivial⟩, hwithin, ?_, rfl, rfl⟩⟩
      simp only [List.append_assoc]

theorem Package.length_encode_ge (p : Package) : 12 ≤ p.encode.length := by
  cases p <;> simp [encode, u32Le, magic] <;> omega

/-- What an accepted string passed. -/
theorem walkPackage_passed {bytes : List UInt8} {result : WalkResult} :
    walkPackage bytes = .ok result ↔
      12 ≤ bytes.length ∧ bytes.take 4 = magic ∧
        ∃ universeArity declCount, walkFields (bytes.drop 4) = .ok ((universeArity, declCount), []) ∧
          result = ⟨declCount, bytes.length, universeArity⟩ := by
  by_cases hlen : bytes.length < 12
  · simp only [walkPackage, hlen]
    exact iff_of_false nofun fun h => by omega
  by_cases hmagic : bytes.take 4 = magic
  · simp only [walkPackage, hlen, hmagic, ne_eq, true_and]
    cases walkFields (bytes.drop 4) with
    | error e => exact iff_of_false nofun fun ⟨_, _, _, h, _⟩ => nomatch h
    | ok walked =>
      obtain ⟨⟨universeArity, declCount⟩, _ | ⟨b, rest⟩⟩ := walked
      · constructor
        · rintro ⟨⟩
          exact ⟨Nat.le_of_not_lt hlen, universeArity, declCount, rfl, rfl⟩
        · rintro ⟨-, _, _, ⟨⟩, rfl⟩
          rfl
      · exact iff_of_false nofun fun ⟨_, _, _, h, _⟩ => nomatch h
  · simp only [walkPackage, hlen, hmagic, ne_eq]
    exact iff_of_false nofun fun h => h.2.1

/-- **The walk accepts exactly the packages that are not nested too deeply.** -/
theorem walkPackage_eq_ok {bytes : List UInt8} {result : WalkResult} :
    walkPackage bytes = .ok result ↔
      ∃ p : Package, p.Within maxWalkDepth ∧ p.encode = bytes ∧
        result = ⟨p.declCount, bytes.length, p.universeArity.toNat⟩ := by
  simp only [walkPackage_passed, walkFields_eq_ok, List.append_nil]
  constructor
  · rintro ⟨-, hmagic, _, _, ⟨p, hwithin, hp, rfl, rfl⟩, rfl⟩
    rw [← hmagic, List.take_append_drop] at hp
    exact ⟨p, hwithin, hp.symm, rfl⟩
  · rintro ⟨p, hwithin, rfl, rfl⟩
    have hmagic : p.encode.take 4 = magic := by cases p <;> rfl
    refine ⟨p.length_encode_ge, hmagic, _, _, ⟨p, hwithin, ?_, rfl, rfl⟩, rfl⟩
    rw [← hmagic, List.take_append_drop]

theorem validateProofPackageWithLimits_eq_ok {bytes : List UInt8} {maxProofBytes maxDecls : ℕ}
    {result : WalkResult} :
    validateProofPackageWithLimits bytes maxProofBytes maxDecls = .ok result ↔
      walkPackage bytes = .ok result ∧ bytes.length ≤ maxProofBytes ∧
        result.declCount ≤ maxDecls % 2 ^ 32 := by
  by_cases hsize : bytes.length ≤ maxProofBytes
  · simp only [validateProofPackageWithLimits, Nat.not_lt_of_le hsize, hsize, true_and]
    cases hwalk : walkPackage bytes with
    | error e => exact iff_of_false nofun fun h => nomatch h.1
    | ok walked =>
      -- the walk reports the length of its input, so the second check repeats the first
      obtain ⟨-, -, universeArity, declCount, -, rfl⟩ := walkPackage_passed.mp hwalk
      by_cases hcount : declCount ≤ maxDecls % 2 ^ 32
      · simp only [pure_bind, Nat.not_lt_of_le hsize, Nat.not_lt_of_le hcount]
        constructor
        · rintro ⟨⟩
          exact ⟨rfl, hcount⟩
        · rintro ⟨⟨⟩, -⟩
          rfl
      · simp only [pure_bind, Nat.not_lt_of_le hsize, Nat.lt_of_not_le hcount]
        exact iff_of_false nofun fun ⟨h, hle⟩ => by cases h; exact hcount hle
  · simp only [validateProofPackageWithLimits, Nat.lt_of_not_le hsize]
    exact iff_of_false nofun fun h => hsize h.2.1

/-! ## The package of a mined proof -/

/-- `lean_bound_canon_package` of `lean_bound_canon.rs`, from its two digests. -/
def leanBoundCanonPackage (type value : Digest) : Package :=
  .v2 0 ⟨[], by decide⟩ type value ⟨[], by decide⟩

theorem leanBoundCanonPackage_within {type value : Digest} {n : ℕ} :
    (leanBoundCanonPackage type value).Within n :=
  fun _ h => nomatch h

theorem length_leanBoundCanonPackage {type value : Digest} :
    (leanBoundCanonPackage type value).encode.length = 86 := by
  simp [leanBoundCanonPackage, Package.encode, Digest.encode, Name.encode, Counted.encode, u32Le,
    magic, type.2, value.2]

end Grammar

end Core
