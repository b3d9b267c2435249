import Boole.Library.OrdMap

/-!
# Core/RateLimiter — tickets observed and shares charged

`boole-core`'s `rate_limiter.rs`.  A source may submit so often in a window; a key may submit a
fixed multiple of the tickets it was seen with at the current head.
-/

open Std Library

namespace Core

def maxCurrentHeadRateIdentities : ℕ := 4096

def maxActiveRateSourceIps : ℕ := 4096

def seenTicketsCap : ℕ := 1000000

inductive RateLimitRejectReason
  | ipQuota
  | pkQuota
deriving DecidableEq

structure RateLimiter where
  m : ℤ
  perIpRateLimitPer60s : ℕ
  windowMs : ℤ
  currentC : Option String
  ip : ExtTreeMap String (List ℤ)
  pkCount : ExtTreeMap String ℤ
  pkTickets : ExtTreeMap String ℤ
  seenTickets : ExtTreeSet String
  exactTicketsPerPkC : ExtTreeMap String ℤ
  identityOrder : List String
  trackedIdentities : ExtTreeSet String

/-- An identity: a key at a head. -/
def rateKey (pk c : String) : String := s!"{pk}|{c}"

def ticketKey (pk c n : String) : String := s!"{pk}|{c}|{n}"

/-- One more in a map of counts. -/
def countUp (counts : ExtTreeMap String ℤ) (key : String) : ExtTreeMap String ℤ :=
  counts.insert key ((counts[key]?).getD 0 + 1)

variable (self : RateLimiter)

namespace RateLimiter

def new (m : ℤ) (perIpRateLimitPer60s : ℕ) (windowMs : ℤ) : RateLimiter where
  m
  perIpRateLimitPer60s
  windowMs
  currentC := none
  ip := ∅
  pkCount := ∅
  pkTickets := ∅
  seenTickets := ∅
  exactTicketsPerPkC := ∅
  identityOrder := []
  trackedIdentities := ∅

def clearIdentityState : RateLimiter :=
  { self with
    pkCount := ∅, pkTickets := ∅, seenTickets := ∅, exactTicketsPerPkC := ∅, identityOrder := []
    trackedIdentities := ∅ }

/-- The window of a source survives a new head. -/
def setCurrentC (c : String) : RateLimiter :=
  if self.currentC = some c then self
  else ({ self with currentC := some c } : RateLimiter).clearIdentityState

/-- Room for an identity: the oldest one that has no charge makes way.  `none` if all have one. -/
def evictIdentity : Option RateLimiter :=
  let free := fun oldest => (self.pkCount[oldest]?).all fun used => used = 0
  (self.identityOrder.findIdx? free).bind fun position =>
    (self.identityOrder[position]?).map fun oldest => { self with
      identityOrder := self.identityOrder.eraseIdx position
      trackedIdentities := self.trackedIdentities.erase oldest
      pkCount := self.pkCount.erase oldest
      pkTickets := self.pkTickets.erase oldest
      exactTicketsPerPkC := self.exactTicketsPerPkC.erase oldest }

/-- `none` is the answer `false`. -/
def trackIdentity (identity : String) : Option RateLimiter :=
  if self.trackedIdentities.contains identity then some self
  else
    let roomy := if maxCurrentHeadRateIdentities ≤ self.trackedIdentities.size then
        self.evictIdentity
      else some self
    roomy.map fun self => { self with
      trackedIdentities := self.trackedIdentities.insert identity
      identityOrder := self.identityOrder ++ [identity] }

/-- A ticket seen before counts again only if its identity was forgotten meanwhile. -/
def observeAgain (pc : String) : RateLimiter :=
  if self.trackedIdentities.contains pc then self
  else match self.trackIdentity pc with
    | none => self
    | some self => { self with
      exactTicketsPerPkC := countUp self.exactTicketsPerPkC pc
      pkTickets := countUp self.pkTickets pc }

/-- Remember an exact ticket; past the cap all exact tickets are forgotten. -/
def rememberTicket (pc ticket : String) : RateLimiter :=
  let seenTickets := self.seenTickets.insert ticket
  if seenTicketsCap < seenTickets.size then
    { self with seenTickets := ∅, exactTicketsPerPkC := ∅ }
  else { self with
    seenTickets, exactTicketsPerPkC := countUp self.exactTicketsPerPkC pc }

def observeTicket (pk c : String) (n : Option String) : RateLimiter × Bool :=
  let pc := rateKey pk c
  if self.currentC.any (fun current => current ≠ c) then (self, false)
  else if n.any fun n => self.seenTickets.contains (ticketKey pk c n) then
    (self.observeAgain pc, false)
  else match self.trackIdentity pc with
    | none => (self, false)
    | some self =>
      let self := n.elim self fun n => self.rememberTicket pc (ticketKey pk c n)
      ({ self with pkTickets := countUp self.pkTickets pc }, true)

def hasObservedTicket (pk c n : String) : Bool :=
  let pc := rateKey pk c
  if (self.exactTicketsPerPkC[pc]?).getD 0 = 0 then 0 < (self.pkTickets[pc]?).getD 0
  else self.seenTickets.contains (ticketKey pk c n)

/-- The sources with a submission in the window. -/
def activeSources (cutoff : ℤ) : ℕ :=
  self.ip.toList.countP fun entry => entry.2.any fun ts => cutoff ≤ ts

def peek (now : ℤ) (ip pk c : String) : Except RateLimitRejectReason Unit :=
  let cutoff := now - self.windowMs
  let ipCount := ((self.ip[ip]?).getD []).countP fun ts => cutoff ≤ ts
  let k := rateKey pk c
  if self.perIpRateLimitPer60s ≤ ipCount then .error .ipQuota
  else if ¬ self.ip.contains ip ∧ maxActiveRateSourceIps ≤ self.activeSources cutoff then
    .error .ipQuota
  else if (self.pkTickets[k]?).getD 0 * self.m ≤ (self.pkCount[k]?).getD 0 then .error .pkQuota
  else .ok ()

def commit (now : ℤ) (ip pk c : String) : RateLimiter :=
  let cutoff := now - self.windowMs
  let expire := fun timestamps : List ℤ => timestamps.dropWhile (· < cutoff)
  let sources := if ¬ self.ip.contains ip ∧ maxActiveRateSourceIps ≤ self.ip.size then
      (self.ip.map fun _ timestamps => expire timestamps).filter fun _ timestamps => timestamps ≠ []
    else self.ip
  { self with
    ip := sources.insert ip (expire ((sources[ip]?).getD []) ++ [now])
    pkCount := countUp self.pkCount (rateKey pk c) }

/-- One charge less for an identity; a count of nothing is not kept. -/
def refund (counts : ExtTreeMap String ℤ) (k : String) : ExtTreeMap String ℤ :=
  match counts[k]? with
  | none => counts
  | some used =>
    if used ≤ 0 then counts
    else if used - 1 = 0 then counts.erase k else counts.insert k (used - 1)

def releaseCommitted (now : ℤ) (ip pk c : String) : RateLimiter × Bool :=
  let k := rateKey pk c
  let timestamps := (self.ip[ip]?).getD []
  let hasPkCharge := (self.pkCount[k]?).any fun used => 0 < used
  if ¬ timestamps.contains now then (self, false)
  else if ¬ hasPkCharge ∧ self.currentC.all (· = c) then (self, false)
  else
    let left := timestamps.erase now
    ({ self with
      ip := if left = [] then self.ip.erase ip else self.ip.insert ip left
      pkCount := refund self.pkCount k }, true)

end RateLimiter

end Core
