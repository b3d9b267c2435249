import Boole.Derivation.State

/-!
# Derivation/Slots — the rounds of a slot

At every height each slot ends its round when its time is over and, when it has none, poses a
queued problem again or draws an unused leaf of a pool.
-/

open Std Library

namespace Derivation

/-- How a round ends at height `h`, if it does: its last status and the code of the event. -/
def roundEnd (params : SlotParams) (h : ℕ) (s : State) (r : Round) :
    Option (RoundStatus × UInt8) :=
  match r.status with
  | .drawn =>
    if plus (plus r.hD 1) params.revealGrace < h then some (.withheld, 0xc2) else none
  | .opened =>
    if (r.problem.bind (s.problems[·]?)).any fun p => plus p.hV params.solveDeadline < h then
      some (.closed, 0xc3)
    else none
  | _ => none

/-- The problems after the round of one of them has ended. -/
def closeProblem (problems : ExtTreeMap Hash Problem) (p : Option Hash) (h : ℕ) :
    ExtTreeMap Hash Problem :=
  match p with
  | none => problems
  | some id => problems.modify id fun p => { p with closed := some h }

variable (self : Draft)

variable (cr : Crypto)

variable (c : Config)

namespace Draft

def setSlot (slot : ℕ) (value : Slot) : Draft :=
  { self with slots := self.slots.set slot value }

/-- End the active round of a slot when its time is over. -/
def endRound (params : SlotParams) (h slot : ℕ) (active : Slot) : Draft :=
  match active.active with
  | none => self
  | some key =>
    match self.rounds[key]? with
    | none => self
    | some r =>
      match roundEnd params h self.toState r with
      | none => self
      | some (status, code) =>
        let closed := { self with
          rounds := self.rounds.insert key { r with status }
          problems := closeProblem self.problems r.problem h }
        (closed.emit (.round slot key.2 code r.poolSeq r.leafIndex r.problem)).setSlot slot
          { active with active := none, scheduled := checkedAdd 64 h params.announceGap }

/-- Start a round of a slot. -/
def startRound (slot number : ℕ) (r : Round) : Draft :=
  let started := { self with rounds := self.rounds.insert (slot, number) r }
  (started.setSlot slot { round := number, scheduled := none, active := some (slot, number) }).emit
    (.round slot number 0xc1 r.poolSeq r.leafIndex r.problem)

variable (self : Draft)

/-- Pose a problem again, under the identity of its next epoch. -/
def reposeProblem (h slot number : ℕ) (old : Problem) : Except FoldError Draft :=
  match checkedAdd 32 old.epoch 1 with
  | none => .ok self
  | some epoch => do
    let pool ← expect self.pools[old.poolSeq]?
    let id := problemId cr c.chainId pool.root old.leafIndex old.instanceSeed epoch
    let p := { old with
      id, epoch, closed := none, winner := none, voided := false, hV := h }
    let posed := { self with problems := self.problems.insert id p }
    pure (posed.startRound slot number {
      poolSeq := old.poolSeq
      leafIndex := old.leafIndex
      instanceSeed := old.instanceSeed
      hD := h - 1
      status := .opened
      problem := some id })

/-- The pools a slot may draw from, with the number of their unused leaves. -/
def eligible (slot hd : ℕ) : List (ℕ × ℕ) :=
  (self.pools.toList.filter fun e => e.2.slot = slot ∧ e.2.start ≤ hd ∧ e.2.unused ≠ []).map
    fun e => (e.1, e.2.unused.length)

/-- The pool that holds the `j`-th leaf, and the place of the leaf in it. -/
def pick : List (ℕ × ℕ) → ℕ → Option (ℕ × ℕ)
  | [], _ => none
  | (seq, len) :: rest, j => if len ≤ j then pick rest (j - len) else some (seq, j)

def drawSeed (slot number : ℕ) (mix : Hash) : Hash :=
  sha cr [ascii "BOOLE-M2/DRAW/v2", beBytes 8 c.chainId, beBytes 1 slot, beBytes 4 number,
    wordBytes mix]

/-- Draw the leaf with place `j` in the pool `seq`. -/
def drawLeaf (h slot number : ℕ) (seed : Hash) (seq j : ℕ) : Except FoldError Draft := do
  let p ← expect self.pools[seq]?
  match p.unused[j]? with
  | none => pure self
  | some index =>
    let drawn := { self with
      pools := self.pools.insert seq { p with unused := p.unused.erase index } }
    pure (drawn.startRound slot number {
      poolSeq := seq
      leafIndex := index
      instanceSeed := seed
      hD := h - 1
      status := .drawn
      problem := none })

/-- Draw an unused leaf, or try again at the next height. -/
def draw (h slot number : ℕ) (mix : Hash) (waiting : Slot) : Except FoldError Draft :=
  let eligible := self.eligible slot (waiting.scheduled.getD h)
  match eligible.foldlM (fun n e => checkedAdd 64 n e.2) 0 with
  | none => .ok (self.setSlot slot { waiting with scheduled := some h })
  | some total =>
    if total = 0 then .ok (self.setSlot slot { waiting with scheduled := some h })
    else
      let seed := drawSeed cr c slot number mix
      match pick eligible (seed.toNat / 2 ^ 192 % total) with
      | none => .ok self
      | some (seq, j) => self.drawLeaf h slot number seed seq j

/-- Start the next round of a slot when it is scheduled before `h`. -/
def nextRound (h slot : ℕ) (mix : Hash) : Except FoldError Draft := do
  let waiting ← expect self.slots[slot]?
  if waiting.active.isSome ∨ waiting.scheduled.all (h ≤ ·) then pure self
  else
    match checkedAdd 32 waiting.round 1 with
    | none => pure self
    | some number => do
      let queue ← expect self.repose[slot]?
      match queue with
      | old :: rest =>
        reposeProblem cr c { self with repose := self.repose.set slot rest } h slot number old
      | [] => self.draw cr c h slot number mix waiting

/-- What happens in one slot at height `h`. -/
def slotEvent (h : ℕ) (mix : Hash) (self : Draft) (slot : ℕ) : Except FoldError Draft := do
  let params ← expect c.slotTable[slot]?
  let active ← expect self.slots[slot]?
  nextRound cr c (self.endRound params h slot active) h slot mix

def slotEvents (h : ℕ) (mix : Hash) : Except FoldError Draft :=
  if h = 0 then .ok self
  else (List.range self.slots.length).foldlM (slotEvent cr c h mix) self

end Draft

end Derivation
