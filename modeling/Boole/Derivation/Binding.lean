import Boole.Derivation.Journal

/-!
# Derivation/Binding — a commit hash fixes the solution

A candidate is named by its problem and a hash of the body that its OPEN reveals.  The body holds the
root of the transport, and a part is accepted with a path to that root.  So, with no collision among
what is hashed, **the key of a candidate determines the terms of its OPEN and every byte of its
transport**, in whatever run and by whomever they are posted (`Ran.commit_binds`).
-/

open Std Library

namespace Derivation

open Reader

/-- The terms of an OPEN: its record without the poster, the positions and the progress. -/
def OpenRecord.terms (o : OpenRecord) : OpenRecord :=
  { o.posted with poster := 0, hO := 0, openPos := (0, 0, 0) }

/-! ## What is hashed -/

def bodyInput (b : Bytes) : Bytes := [ascii "BOOLE-M2/BODY/v1", b].flatten

def commitInput (chain : ℕ) (p c b : Hash) : Bytes :=
  [ascii "BOOLE-M2/COMMIT/v2", beBytes 8 chain, wordBytes p, wordBytes c, wordBytes b].flatten

def leafInput (solver : Address) (salt : Hash) (index : ℕ) (data : Hash) : Bytes :=
  [[0], ascii "BOOLE-M2/PART/v1", wordBytes solver, wordBytes salt, beBytes 2 index, wordBytes data].flatten

/-- The bodies of the OPENs that were accepted. -/
def openings (log : List Entry) : List OpenBody :=
  log.filterMap fun e => if e.code = 0x81 then decodeBody 1 openBody e.item.body else none

/-- The candidates that were opened, each with the record of its OPEN. -/
def records (cr : Crypto) (c : Config) (log : List Entry) : List (Key × OpenRecord) :=
  log.filterMap fun e => if e.code = 0x81 ∧ e.item.kind = 3 then
    (parseOpen cr c e.item.body).toOption.map fun q =>
      ((q.problem, commitHash cr c.chainId q.problem q.cancel q.record.bodyDigest),
        { q.record with hO := e.height, openPos := e.pos })
    else none

/-- A part that was accepted, with the record it was checked against. -/
structure Proof where
  o : OpenRecord
  b : PartBody
  path : List Hash
  data : Bytes

def proofs (cr : Crypto) (c : Config) (log : List Entry) : List Proof :=
  (records cr c log).flatMap fun r => (log.filter Entry.took).filterMap fun e => do
    let b ← decodeBody 1 partBody e.item.body
    guard (b.ch = r.1.2)
    let proof ← (hashes (depth r.2.n)).run b.tail
    pure ⟨r.2, b, proof.1, proof.2⟩

def bodyInputs (log : List Entry) : List Bytes := (openings log).map fun o => bodyInput o.b

def commitInputs (cr : Crypto) (c : Config) (log : List Entry) : List Bytes :=
  (openings log).map fun o => commitInput c.chainId o.problem o.cancel (bodyDigest cr o.b)

def dataInputs (cr : Crypto) (c : Config) (log : List Entry) : List Bytes :=
  (proofs cr c log).map fun p => p.data

def leafInputs (cr : Crypto) (c : Config) (log : List Entry) : List Bytes :=
  (proofs cr c log).map fun p => leafInput p.o.solver p.o.salt p.b.index (sha cr [p.data])

def nodeInputs (cr : Crypto) (c : Config) (log : List Entry) : List Bytes :=
  (proofs cr c log).flatMap fun p =>
    climbed cr (partLeaf cr p.o.solver p.o.salt p.b.index p.data) p.b.index p.path

/-- **The hash has no collision among the inputs of one domain.** -/
structure CollisionFree (cr : Crypto) (c : Config) (log : List Entry) : Prop where
  bodies : Injects cr (bodyInputs log)
  commits : Injects cr (commitInputs cr c log)
  data : Injects cr (dataInputs cr c log)
  leaves : Injects cr (leafInputs cr c log)
  nodes : Injects cr (nodeInputs cr c log)

instance (cr : Crypto) (c : Config) (log : List Entry) : Decidable (CollisionFree cr c log) :=
  decidable_of_iff (Injects cr (bodyInputs log) ∧ Injects cr (commitInputs cr c log) ∧
    Injects cr (dataInputs cr c log) ∧ Injects cr (leafInputs cr c log) ∧ Injects cr (nodeInputs cr c log))
    ⟨fun ⟨h₁, h₂, h₃, h₄, h₅⟩ => ⟨h₁, h₂, h₃, h₄, h₅⟩, fun ⟨h₁, h₂, h₃, h₄, h₅⟩ => ⟨h₁, h₂, h₃, h₄, h₅⟩⟩

section Binding

variable {cr : Crypto} {c : Config} {log log' : List Entry} {e e' : Entry} {key key' : Key}
  {o o' : OpenRecord}

/-- The terms that a body states. -/
def OpenBody.terms (cr : Crypto) (b : OpenBody) : OpenRecord where
  openPos := (0, 0, 0)
  donePos := none
  exportDigest := b.exportDigest
  queueIndex := none
  poster := 0
  hO := 0
  solver := b.solver
  salt := b.salt
  n := b.n
  zLen := b.z
  rawLen := b.raw
  dataRoot := b.root
  bodyDigest := bodyDigest cr b.b
  envId := envId cr b.schema b.base b.pkgs
  mode := b.mode
  bitmap := [0, 0]
  hR := none

/-- An OPEN that was accepted, read field by field. -/
theorem Opens.decoded (he : Opens cr c e key o) : ∃ b, decodeBody 1 openBody e.item.body = some b ∧
    key = (b.problem, cr.sha256 (commitInput c.chainId b.problem b.cancel (bodyDigest cr b.b))) ∧
    o.terms = b.terms cr := by
  obtain ⟨q, hq, rfl, rfl⟩ := he.body
  simp only [parseOpen, bind_eq_ok, okOr_eq_ok, ensure_eq_ok, pure_eq_ok] at hq
  obtain ⟨b, hb, m, -, _, -, _, -, _, -, _, -, rfl⟩ := hq
  exact ⟨b, hb, rfl, rfl⟩

theorem decodeBody_eq_some {α : Type} {version : UInt8} {x : Reader α} {body : Bytes} {a : α}
    (h : decodeBody version x body = some a) : ∃ b, body = version :: b ∧ x.run b = some (a, []) := by
  unfold decodeBody at h
  split at h
  · exact nomatch h
  · rename_i v b
    split at h
    · rename_i hv
      exact ⟨b, by rw [hv], all_eq_some.mp h⟩
    · exact nomatch h

/-- **The committed part of a body determines what it states.** -/
theorem openBody_inj {body body' : Bytes} {b b' : OpenBody} (h : decodeBody 1 openBody body = some b)
    (h' : decodeBody 1 openBody body' = some b') (hb : b.b = b'.b) :
    { b with poster := b'.poster, cancel := b'.cancel } = b' := by
  obtain ⟨_, -, h⟩ := decodeBody_eq_some h
  obtain ⟨_, -, h'⟩ := decodeBody_eq_some h'
  rw [openBody, bind_eq_some] at h h'
  obtain ⟨poster, _, -, h⟩ := h
  obtain ⟨poster', _, -, h'⟩ := h'
  rw [bind_eq_some] at h h'
  obtain ⟨cancel, B, -, h⟩ := h
  obtain ⟨cancel', B', -, h'⟩ := h'
  rw [bind_eq_some] at h h'
  obtain ⟨_, _, hrest, h⟩ := h
  obtain ⟨_, _, hrest', h'⟩ := h'
  obtain ⟨rfl, rfl⟩ := rest_eq_some.mp hrest
  obtain ⟨rfl, rfl⟩ := rest_eq_some.mp hrest'
  have hfirst : b.b = B := by
    refine of_alike (R := fun (x : OpenBody) _ => x.b = B) h h ?_
    repeat refine alike_bind fun _ => ?_
    exact alike_pure rfl
  have hsecond : b'.b = B' := by
    refine of_alike (R := fun (x : OpenBody) _ => x.b = B') h' h' ?_
    repeat refine alike_bind fun _ => ?_
    exact alike_pure rfl
  obtain rfl : B = B' := by rw [← hfirst, hb, hsecond]
  refine of_alike
    (R := fun x x' : OpenBody => { x with poster := x'.poster, cancel := x'.cancel } = x') h h' ?_
  repeat refine alike_bind fun _ => ?_
  exact alike_pure rfl

theorem mem_openings (he : e ∈ log) (hcode : e.code = 0x81) {b : OpenBody}
    (hb : decodeBody 1 openBody e.item.body = some b) : b ∈ openings log :=
  List.mem_filterMap.mpr ⟨e, he, by rw [if_pos hcode, hb]⟩

/-- **A commit hash names one problem, one cancel hash and one body.** -/
theorem CollisionFree.openings (hfree : CollisionFree cr c log) {b b' : OpenBody}
    (hb : b ∈ Derivation.openings log) (hb' : b' ∈ Derivation.openings log)
    (h : cr.sha256 (commitInput c.chainId b.problem b.cancel (bodyDigest cr b.b)) =
      cr.sha256 (commitInput c.chainId b'.problem b'.cancel (bodyDigest cr b'.b))) :
    b.problem = b'.problem ∧ b.b = b'.b := by
  have hcommit := hfree.commits _ (List.mem_map.mpr ⟨b, hb, rfl⟩) _ (List.mem_map.mpr ⟨b', hb', rfl⟩) h
  simp only [commitInput, List.flatten_cons, List.flatten_nil, List.append_nil, List.append_cancel_left_eq] at hcommit
  obtain ⟨hp, hcommit⟩ := List.append_inj hcommit (by simp)
  obtain ⟨-, hdigest⟩ := List.append_inj hcommit (by simp)
  have hbody := hfree.bodies _ (List.mem_map.mpr ⟨b, hb, rfl⟩) _ (List.mem_map.mpr ⟨b', hb', rfl⟩)
    (wordBytes_inj hdigest)
  simp only [bodyInput, List.flatten_cons, List.flatten_nil, List.append_nil, List.append_cancel_left_eq] at hbody
  exact ⟨wordBytes_inj hp, hbody⟩

theorem CollisionFree.distinct (hfree : CollisionFree cr c log) : Distinct cr c log := by
  intro e he e' he' key key' o o' hopens hopens' hkey
  obtain ⟨b, hb, rfl, -⟩ := hopens.decoded
  obtain ⟨b', hb', rfl, -⟩ := hopens'.decoded
  obtain ⟨hp, -⟩ := hfree.openings (mem_openings he hopens.code hb) (mem_openings he' hopens'.code hb') hkey
  exact Prod.ext hp hkey

/-- The terms a part is checked against. -/
theorem terms_congr (h : o.terms = o'.terms) :
    o.n = o'.n ∧ o.solver = o'.solver ∧ o.salt = o'.salt ∧ o.dataRoot = o'.dataRoot := by
  have hn : o.terms.n = o'.terms.n := by rw [h]
  have hsolver : o.terms.solver = o'.terms.solver := by rw [h]
  have hsalt : o.terms.salt = o'.terms.salt := by rw [h]
  have hroot : o.terms.dataRoot = o'.terms.dataRoot := by rw [h]
  exact ⟨hn, hsolver, hsalt, hroot⟩

/-- **Two OPENs of one candidate have the same terms.** -/
theorem Opens.terms_eq (hfree : CollisionFree cr c log) (he : e ∈ log) (he' : e' ∈ log)
    (hopens : Opens cr c e key o) (hopens' : Opens cr c e' key o') : o.terms = o'.terms := by
  obtain ⟨b, hb, hkey, hterms⟩ := hopens.decoded
  obtain ⟨b', hb', hkey', hterms'⟩ := hopens'.decoded
  have hhash := (congrArg Prod.snd (hkey.symm.trans hkey'))
  obtain ⟨-, hbody⟩ := hfree.openings (mem_openings he hopens.code hb) (mem_openings he' hopens'.code hb') hhash
  rw [hterms, hterms', ← openBody_inj hb hb' hbody]
  rfl

theorem mem_records : (key, o) ∈ records cr c log ↔ ∃ e ∈ log, Opens cr c e key o := by
  simp only [records, List.mem_filterMap, Option.ite_none_right_eq_some, Option.map_eq_some_iff,
    Prod.mk.injEq, toOption_eq_some]
  constructor
  · rintro ⟨e, he, ⟨hcode, hkind⟩, q, hq, rfl, rfl⟩
    exact ⟨e, he, hcode, hkind, q, hq, rfl, rfl⟩
  · rintro ⟨e, he, hcode, hkind, q, hq, rfl, rfl⟩
    exact ⟨e, he, ⟨hcode, hkind⟩, q, hq, rfl, rfl⟩

theorem mem_proofs (hr : (key, o) ∈ records cr c log) (he : e ∈ log) (htook : e.took) {b : PartBody}
    {path : List Hash} {data : Bytes} (hc : Carries cr o e.item b path data) (hch : b.ch = key.2) :
    ⟨o, b, path, data⟩ ∈ proofs cr c log := by
  refine List.mem_flatMap.mpr ⟨(key, o), hr, List.mem_filterMap.mpr ⟨e, ?_, ?_⟩⟩
  · exact List.mem_filter.mpr ⟨he, decide_eq_true htook⟩
  · simp [hc.body, hch, hc.tail]

/-- The path of a part has the length of the tree. -/
theorem Carries.length_path {x : Input} {b : PartBody} {path : List Hash} {data : Bytes}
    (hc : Carries cr o x b path data) : path.length = depth o.n := by
  have htail := hc.tail
  simp only [hashes, bind_eq_some, words_eq_some (n := 32) rfl] at htail
  obtain ⟨_, _, -, _, _, -, hlen, -⟩ := htail
  exact hlen

/-- A leaf binds the data, the index being the same. -/
theorem CollisionFree.leaf (hfree : CollisionFree cr c log) {p p' : Proof} (hp : p ∈ proofs cr c log)
    (hp' : p' ∈ proofs cr c log) (hsolver : p.o.solver = p'.o.solver) (hsalt : p.o.salt = p'.o.salt)
    (hindex : p.b.index = p'.b.index)
    (h : partLeaf cr p.o.solver p.o.salt p.b.index p.data =
      partLeaf cr p'.o.solver p'.o.salt p'.b.index p'.data) : p.data = p'.data := by
  have hinput := hfree.leaves _ (List.mem_map.mpr ⟨p, hp, rfl⟩) _ (List.mem_map.mpr ⟨p', hp', rfl⟩) h
  simp only [leafInput, hsolver, hsalt, hindex, List.flatten_cons, List.flatten_nil, List.append_nil,
    List.append_cancel_left_eq] at hinput
  have hdigest : cr.sha256 p.data = cr.sha256 p'.data := by simpa [sha] using wordBytes_inj hinput
  exact hfree.data _ (List.mem_map.mpr ⟨p, hp, rfl⟩) _ (List.mem_map.mpr ⟨p', hp', rfl⟩) hdigest

/-- **Two parts of one candidate at one index carry the same bytes.** -/
theorem CollisionFree.parts (hfree : CollisionFree cr c log) {e₀ e₀' : Entry} (he₀ : e₀ ∈ log)
    (he₀' : e₀' ∈ log) (hopens : Opens cr c e₀ key o) (hopens' : Opens cr c e₀' key o') (he : e ∈ log)
    (he' : e' ∈ log) (htook : e.took) (htook' : e'.took) {i : ℕ} {data data' : Bytes}
    (hpart : e.part cr o key.2 = some (i, data)) (hpart' : e'.part cr o' key.2 = some (i, data')) :
    data = data' := by
  have hterms := Opens.terms_eq hfree he₀ he₀' hopens hopens'
  obtain ⟨hn, hsolver, hsalt, hroot⟩ := terms_congr hterms
  obtain ⟨b, path, hc, hch, rfl⟩ := partOf_eq_some.mp hpart
  obtain ⟨b', path', hc', hch', hindex⟩ := partOf_eq_some.mp hpart'
  have hmem := mem_proofs (mem_records.mpr ⟨e₀, he₀, hopens⟩) he htook hc hch
  have hmem' := mem_proofs (mem_records.mpr ⟨e₀', he₀', hopens'⟩) he' htook' hc' hch'
  have hleaves : partLeaf cr o.solver o.salt b.index data = partLeaf cr o'.solver o'.salt b'.index data' := by
    have hclimb := (of_decide_eq_true hc.verified).trans
      (hroot.trans (of_decide_eq_true hc'.verified).symm)
    rw [hindex] at hclimb
    rw [hindex]
    have hnodes : Set.InjOn cr.sha256 {x | x ∈ nodeInputs cr c log} :=
      fun x hx y hy => hfree.nodes x hx y hy
    refine climb_inj hnodes ?_ (fun x hx => ?_) (fun x hx => ?_) hclimb
    · rw [hc.length_path, hc'.length_path, hn]
    · exact List.mem_flatMap.mpr ⟨_, hmem, hx⟩
    · refine List.mem_flatMap.mpr ⟨_, hmem', ?_⟩
      rw [hindex]
      exact hx
  exact hfree.leaf hmem hmem' hsolver hsalt hindex.symm hleaves

/-! ## Runs -/

/-- The record of a candidate that was opened. -/
def State.openOf (s : State) (key : Key) : Option OpenRecord :=
  (s.candidates[key]?.bind Candidate.live?).bind LiveCandidate.open?

/-- A part of a candidate that was accepted. -/
def Delivered (cr : Crypto) (c : Config) (log : List Entry) (key : Key) (i : ℕ) (data : Bytes) : Prop :=
  ∃ e ∈ log, e.took ∧ ∃ e₀ ∈ log, ∃ o, Opens cr c e₀ key o ∧ e.part cr o key.2 = some (i, data)

/-- The bytes of a transport: its parts in the order of their indices. -/
def Transports (cr : Crypto) (c : Config) (log : List Entry) (key : Key) (n : ℕ) (z : Bytes) : Prop :=
  ∃ parts : List Bytes, parts.length = n ∧
    (∀ i data, parts[i]? = some data → Delivered cr c log key i data) ∧ z = parts.flatten

theorem openOf_eq_some {s : State} : s.openOf key = some o ↔
    ∃ l, s.candidates[key]? = some (.live l) ∧ l.open? = some o := by
  simp only [State.openOf, Option.bind_eq_some_iff]
  constructor
  · rintro ⟨l, ⟨x, hx, hl⟩, ho⟩
    obtain rfl := Draft.live?_eq_some hl
    exact ⟨l, hx, ho⟩
  · rintro ⟨l, hl, ho⟩
    exact ⟨l, ⟨_, hl, rfl⟩, ho⟩

/-- The record in a state is the one of an OPEN that was accepted. -/
theorem Journal.opened {s : State} (hj : Journal cr c log s) (ho : s.openOf key = some o) :
    ∃ e ∈ log, Opens cr c e key o.posted := by
  obtain ⟨l, hl, hopen⟩ := openOf_eq_some.mp ho
  obtain ⟨-, hprogress⟩ := hj.live key l hl
  cases hprogress with
  | committed _ hnone => exact nomatch hnone.symm.trans hopen
  | opened _ hopen' _ _ hlog he =>
    obtain rfl := Option.mem_unique hopen' hopen
    exact ⟨_, by simp [hlog], he⟩
  | done _ hopen' hlog he =>
    obtain rfl := Option.mem_unique hopen' hopen
    exact ⟨_, by simp [hlog], he⟩

theorem part_lt {ch : Hash} {v : ℕ × Bytes} (hv : e.part cr o ch = some v) : v.1 < o.n := by
  obtain ⟨b, path, hc, -, hindex⟩ := partOf_eq_some.mp hv
  exact hindex ▸ hc.index

/-- **A candidate that is complete has been given every part.** -/
theorem Journal.delivered {s : State} (hj : Journal cr c log s) (ho : s.openOf key = some o)
    (hdone : o.donePos.isSome) {i : ℕ} (hi : i < o.n) : ∃ data, Delivered cr c log key i data := by
  obtain ⟨l, hl, hopen⟩ := openOf_eq_some.mp ho
  obtain ⟨-, hprogress⟩ := hj.live key l hl
  cases hprogress with
  | committed _ hnone => exact nomatch hnone.symm.trans hopen
  | opened _ hopen' _ hnone =>
    obtain rfl := Option.mem_unique hopen' hopen
    rw [hnone] at hdone
    exact nomatch hdone
  | @done _ _ hopen' pre post later e₀ e' hlog he hg _ hall =>
    obtain rfl := Option.mem_unique hopen' hopen
    have hperm := perm_range_of_firsts (fun x _ v hv => part_lt hv) hall
    have hmem := hperm.mem_iff.mpr (List.mem_range.mpr hi)
    obtain ⟨⟨_, data⟩, hpart, rfl⟩ := List.mem_map.mp hmem
    rw [← hg.taken] at hpart
    obtain ⟨e, he', hpart⟩ := List.mem_filterMap.mp hpart
    obtain ⟨hpost, htook⟩ := List.mem_filter.mp he'
    refine ⟨data, e, ?_, of_decide_eq_true htook, e₀, by simp [hlog], _, he, hpart⟩
    rw [hlog]
    simp only [List.mem_append, List.mem_cons] at hpost ⊢
    tauto

theorem CollisionFree.delivered {whole : List Entry} (hfree : CollisionFree cr c whole) (hlog : log ⊆ whole)
    (hlog' : log' ⊆ whole) {i : ℕ} {data data' : Bytes} (hd : Delivered cr c log key i data)
    (hd' : Delivered cr c log' key i data') : data = data' := by
  obtain ⟨e, he, htook, e₀, he₀, o, hopens, hpart⟩ := hd
  obtain ⟨e', he', htook', e₀', he₀', o', hopens', hpart'⟩ := hd'
  exact hfree.parts (hlog he₀) (hlog' he₀') hopens hopens' (hlog he) (hlog' he') htook htook' hpart hpart'

/-- What is delivered at every index is one transport, whichever run delivers it. -/
theorem CollisionFree.transports {whole : List Entry} (hfree : CollisionFree cr c whole) (hlog : log ⊆ whole)
    (hlog' : log' ⊆ whole) {n : ℕ} {z z' : Bytes} (hz : Transports cr c log key n z)
    (hz' : Transports cr c log' key n z') : z = z' := by
  obtain ⟨parts, hlen, hparts, rfl⟩ := hz
  obtain ⟨parts', hlen', hparts', rfl⟩ := hz'
  refine congrArg List.flatten (List.ext_getElem (hlen.trans hlen'.symm) fun i hi hi' => ?_)
  exact hfree.delivered hlog hlog' (hparts i _ (List.getElem?_eq_getElem hi))
    (hparts' i _ (List.getElem?_eq_getElem hi'))

theorem Journal.transports {s : State} (hj : Journal cr c log s) (ho : s.openOf key = some o)
    (hdone : o.donePos.isSome) : ∃ z, Transports cr c log key o.n z := by
  choose! f hf using fun i (hi : i < o.n) => hj.delivered ho hdone hi
  refine ⟨_, (List.range o.n).map f, by simp, fun i data hdata => ?_, rfl⟩
  obtain ⟨j, hj', rfl⟩ : ∃ j, (List.range o.n)[i]? = some j ∧ f j = data := by
    simpa using hdata
  obtain ⟨hi, rfl⟩ := List.getElem?_eq_some_iff.mp hj'
  rw [List.getElem_range]
  exact hf i (by simpa using hi)

/-- **Commit-reveal binding.**  Whatever the items, the posters and the heights of two runs under one
configuration are, all OPENs accepted for one candidate have the same terms, the parts accepted at one
index are the same bytes, and if the candidate is complete in both runs there is one transport. -/
theorem Ran.commit_binds {gas gas' : ℕ} {run run' : List (StepInput × Step)} {s s' : State}
    (hr : Ran cr c gas run s) (hr' : Ran cr c gas' run' s')
    (hfree : CollisionFree cr c (journal run ++ journal run')) (key : Key) :
    (∀ e ∈ journal run, ∀ e' ∈ journal run', ∀ o o', Opens cr c e key o → Opens cr c e' key o' →
      o.terms = o'.terms) ∧
    (∀ i data data', Delivered cr c (journal run) key i data → Delivered cr c (journal run') key i data' →
      data = data') ∧
    ∀ o o', s.openOf key = some o → s'.openOf key = some o' → o.terms = o'.terms ∧
      (o.donePos.isSome → o'.donePos.isSome → ∃ z,
        (∀ x, Transports cr c (journal run) key o.n x ↔ x = z) ∧
        ∀ x, Transports cr c (journal run') key o'.n x ↔ x = z) := by
  have hleft : journal run ⊆ journal run ++ journal run' := List.subset_append_left _ _
  have hright : journal run' ⊆ journal run ++ journal run' := List.subset_append_right _ _
  have hj := hr.journaled (hfree.distinct.mono hleft)
  have hj' := hr'.journaled (hfree.distinct.mono hright)
  refine ⟨fun e he e' he' o o' => Opens.terms_eq hfree (hleft he) (hright he'),
    fun i data data' => hfree.delivered hleft hright, fun o o' ho ho' => ?_⟩
  obtain ⟨e, he, hopens⟩ := hj.opened ho
  obtain ⟨e', he', hopens'⟩ := hj'.opened ho'
  have hposted := Opens.terms_eq hfree (hleft he) (hright he') hopens hopens'
  have hterms : o.terms = o'.terms := hposted
  refine ⟨hterms, fun hdone hdone' => ?_⟩
  obtain ⟨z, hz⟩ := hj.transports ho hdone
  obtain ⟨z', hz'⟩ := hj'.transports ho' hdone'
  have hn := (terms_congr hterms).1
  obtain rfl : z = z' := hfree.transports hleft hright hz (hn ▸ hz')
  refine ⟨z, fun x => ⟨fun hx => hfree.transports hleft hleft hx hz, ?_⟩,
    fun x => ⟨fun hx => hfree.transports hright hright hx hz', ?_⟩⟩
  · rintro rfl
    exact hz
  · rintro rfl
    exact hz'

theorem Journal.length_delivered {s : State} (hj : Journal cr c log s) (hfree : CollisionFree cr c log)
    (ho : s.openOf key = some o) {i : ℕ} {data : Bytes} (hd : Delivered cr c log key i data) :
    expectedLen o i = some data.length := by
  obtain ⟨e, -, -, e₀, he₀, o', hopens', hpart⟩ := hd
  obtain ⟨e₁, he₁, hopens⟩ := hj.opened ho
  obtain ⟨b, _, hc, -, rfl⟩ := partOf_eq_some.mp hpart
  have hterms : o.posted.terms = o'.terms := Opens.terms_eq hfree he₁ he₀ hopens hopens'
  rw [← hc.length]
  change expectedLen o.posted.terms b.index = expectedLen o'.terms b.index
  rw [hterms]

/-- **The accepted parts of a complete candidate make up one transport,** of the length that its OPEN
announced. -/
theorem Ran.transport_length {gas : ℕ} {run : List (StepInput × Step)} {s : State}
    (hr : Ran cr c gas run s) (hfree : CollisionFree cr c (journal run))
    (ho : s.openOf key = some o) (hdone : o.donePos.isSome) :
    ∃ z, (∀ x, Transports cr c (journal run) key o.n x ↔ x = z) ∧ z.length = o.zLen := by
  have hj := hr.journaled hfree.distinct
  obtain ⟨z, hz⟩ := hj.transports ho hdone
  have hself := List.Subset.refl (journal run)
  refine ⟨z, fun x => ⟨fun hx => hfree.transports hself hself hx hz, fun h => h ▸ hz⟩, ?_⟩
  obtain ⟨parts, hn, hparts, rfl⟩ := hz
  have hlen {i : ℕ} {data : Bytes} (hi : parts[i]? = some data) :=
    hj.length_delivered hfree ho (hparts i data hi)
  obtain ⟨e, -, hopens⟩ := hj.opened ho
  rcases List.eq_nil_or_concat' parts with rfl | ⟨init, last, rfl⟩
  · exact absurd hn.symm hopens.start.2
  rw [List.length_append, List.length_singleton] at hn
  -- every part but the last is full
  have hfull : ∀ data ∈ init, data.length = partSize := by
    intro data hdata
    obtain ⟨i, hi, rfl⟩ := List.getElem_of_mem hdata
    have hi' := hlen (List.getElem?_append_left hi ▸ List.getElem?_eq_getElem hi)
    rw [expectedLen, if_neg (by omega)] at hi'
    exact (Option.some.inj hi').symm
  have hlast : expectedLen o init.length = some last.length := hlen (by simp)
  rw [expectedLen, if_pos hn, ← hn, Nat.add_sub_cancel, checkedSub_eq_some] at hlast
  rw [List.flatten_append, List.length_append, List.length_flatten,
    List.sum_eq_card_nsmul _ partSize (by simpa using hfull)]
  simp
  omega
end Binding

namespace Example

/-- The OPEN and the PART of a solution, posted by somebody else. -/
def relay (p x : ℕ) : List Input :=
  [⟨4, 7, 3, 1 :: (beBytes 20 3 ++ beBytes 32 0 ++ solution p x)⟩,
    ⟨5, 1, 4, 1 :: (beBytes 20 3 ++ wordBytes (hash p x) ++ beBytes 2 0 ++ [9])⟩]

/-- The solution that wins is revealed one block later, by somebody else. -/
def relayed : List StepInput :=
  [⟨block 1, [pool], [], genesis⟩, ⟨block 2, [], [], genesis⟩, ⟨block 3, [problem], [], genesis⟩,
    ⟨block 4, [commit 0 0 1], [], genesis⟩, ⟨block 5, [], [], genesis⟩, ⟨block 6, [], [], genesis⟩,
    ⟨block 7, relay 0 1, [], genesis⟩]

/-- The journal of a run in which one solution is revealed at a height. -/
def revealed (h : ℕ) (items : List Input) : List Entry :=
  [⟨1, pool, 0x85⟩, ⟨3, problem, 0x86⟩, ⟨4, commit 0 0 1, 0x80⟩]
    ++ (items.zip [0x81, 0x83]).map fun z => ⟨h, z.1, z.2⟩

end Example

/-- A solution that is revealed at different heights by different posters. -/
theorem Ran.commit_binds_relayed : ∃ run s run' s' o o',
    Ran toyCrypto exampleConfig exampleGas run s ∧ Ran toyCrypto exampleConfig exampleGas run' s' ∧
    s.openOf (0, Example.hash 0 1) = some o ∧ s'.openOf (0, Example.hash 0 1) = some o' ∧
    o.openPos ≠ o'.openPos ∧ o.terms = o'.terms ∧ ∃ z,
      (∀ x, Transports toyCrypto exampleConfig (journal run) (0, Example.hash 0 1) o.n x ↔ x = z) ∧
      ∀ x, Transports toyCrypto exampleConfig (journal run') (0, Example.hash 0 1) o'.n x ↔ x = z := by
  obtain ⟨run, s, hr, hv⟩ := exists_reached_of_play toyCrypto exampleConfig exampleGas Free Example.winning
    (fun x => (journal x.1, (x.2.openOf (0, Example.hash 0 1)).map fun o => (o.openPos, o.donePos.isSome)))
    (v := (Example.revealed 6 (Example.reveal 0 0 1), some ((6, 0, 0), true))) (by decide +kernel)
  obtain ⟨run', s', hr', hv'⟩ := exists_reached_of_play toyCrypto exampleConfig exampleGas Free Example.relayed
    (fun x => (journal x.1, (x.2.openOf (0, Example.hash 0 1)).map fun o => (o.openPos, o.donePos.isSome)))
    (v := (Example.revealed 7 (Example.relay 0 1), some ((7, 4, 7), true))) (by decide +kernel)
  obtain ⟨hlog, hopen⟩ := Prod.mk.inj hv
  obtain ⟨hlog', hopen'⟩ := Prod.mk.inj hv'
  obtain ⟨o, ho, hpos⟩ := Option.map_eq_some_iff.mp hopen
  obtain ⟨o', ho', hpos'⟩ := Option.map_eq_some_iff.mp hopen'
  obtain ⟨hpos, hdone⟩ := Prod.mk.inj hpos
  obtain ⟨hpos', hdone'⟩ := Prod.mk.inj hpos'
  have hfree : CollisionFree toyCrypto exampleConfig (journal run ++ journal run') := by
    rw [show journal run = _ from hlog, show journal run' = _ from hlog']
    decide +kernel
  obtain ⟨-, -, hboth⟩ := Ran.commit_binds hr.ran hr'.ran hfree (0, Example.hash 0 1)
  obtain ⟨hterms, htransport⟩ := hboth o o' ho ho'
  refine ⟨run, s, run', s', o, o', hr.ran, hr'.ran, ho, ho', ?_, hterms, htransport hdone hdone'⟩
  rw [hpos, hpos']
  decide

/-- The transport of one byte. -/
theorem Ran.transport_length_revealed : ∃ (run : _) (s : State) (o : _) (z : _),
    s.openOf (0, Example.hash 0 1) = some o ∧ z.length = o.zLen ∧
      Transports toyCrypto exampleConfig (journal run) (0, Example.hash 0 1) o.n z := by
  obtain ⟨run, s, hr, hv⟩ := exists_reached_of_play toyCrypto exampleConfig exampleGas Free Example.relayed
    (fun x => (journal x.1, (x.2.openOf (0, Example.hash 0 1)).map (·.donePos.isSome)))
    (v := (Example.revealed 7 (Example.relay 0 1), some true)) (by decide +kernel)
  obtain ⟨hlog, hopen⟩ := Prod.mk.inj hv
  obtain ⟨o, ho, hdone⟩ := Option.map_eq_some_iff.mp hopen
  have hfree : CollisionFree toyCrypto exampleConfig (journal run) := by
    rw [show journal run = _ from hlog]
    decide +kernel
  obtain ⟨z, hz, hlen⟩ := hr.ran.transport_length hfree ho hdone
  exact ⟨run, s, o, z, ho, hlen, (hz z).mpr rfl⟩

end Derivation
