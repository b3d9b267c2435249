import Mathlib.Algebra.Order.BigOperators.Group.Finset
import Mathlib.Data.Fintype.BigOperators
import Mathlib.Logic.Relation
import Boole.Library.OrdMap

/-!
# Node/Lifecycle — the shutdown barrier of the P2P workers

`boole-node`'s `p2p_lifecycle.rs`.  Any number of threads call the lifecycle at once.  A step of the
model is **one action on what they share**: taking or releasing the registry's mutex, reading or
storing the flag, parking on the condition variable or notifying it, taking a side of the gate.  The
calls are programs of such actions, and their interleavings are the runs of `Step`.

    request_stop:   store ──▸ lock ──▸ shut all ──▸ unlock ──▸ notify
                                ▾
    register:       lock ──▸ check ──▸ insert ──▸ unlock
    wait_or_stop:   check ──▸ lock ──▸ test ──▸ park ⋯▸ wake ──▸ lock ──▸ test ──▸ …

The flag is stored outside the mutex, but the one who stores it takes the mutex afterwards.  So
whoever read the flag before the store and acts on it under the mutex, a registration or a wait that
parks, **has acted before the sweep and the notification** (`Inv`).
-/

open Std Library

namespace Node

/-- Where a thread stands in its call. -/
inductive Pc (Socket : Type)
  | idle
  -- `register`, after the handle was cloned
  | registerLock (k : Socket)
  | registerCheck (k : Socket)
  | registerShut (k : Socket)
  | registerRefuse (k : Socket)
  | registerInsert (k : Socket)
  | registerDone (id : ℕ) (k : Socket)
  -- `SocketLease::drop`
  | dropLock (id : ℕ)
  | dropRemove (id : ℕ)
  -- `wait_or_stop`
  | waitFirst
  | waitLock
  | waitTest
  | waitPark
  | waiting
  | waitWake
  | waitLast
  | waitDone (b : Bool)
  -- `begin_mutation`
  | mutateLock
  | mutateCheck
  -- `request_stop`, and `stop` when there is a barrier to cross
  | stopStore (barrier : Bool)
  | stopLock (barrier : Bool)
  | stopShut (barrier : Bool)
  | stopUnlock (barrier : Bool)
  | stopNotify (barrier : Bool)
  | barrierLock
  | barrierDrop
deriving DecidableEq

/-- Whether a thread at this point has locked the registry. -/
def Pc.holds {Socket : Type} : Pc Socket → Bool
  | .registerCheck _ | .registerShut _ | .registerRefuse _ | .registerInsert _ | .registerDone _ _
  | .dropRemove _ | .waitTest | .waitPark | .waitLast | .waitDone _ | .stopShut _ | .stopUnlock _ => true
  | _ => false

/-- The points of `request_stop` and `stop` after the flag was stored. -/
def Pc.stored {Socket : Type} : Pc Socket → Bool
  | .stopLock _ | .stopShut _ | .stopUnlock _ | .stopNotify _ | .barrierLock | .barrierDrop => true
  | _ => false

/-- The points at which all sockets have been shut down. -/
def Pc.swept {Socket : Type} : Pc Socket → Bool
  | .stopUnlock _ | .stopNotify _ | .barrierLock | .barrierDrop => true
  | _ => false

/-- The points before the notification. -/
def Pc.notifies {Socket : Type} : Pc Socket → Bool
  | .stopLock _ | .stopShut _ | .stopUnlock _ | .stopNotify _ => true
  | _ => false

/-- The number that a call is about to hand out or to give back, and the socket it stands for when it
is about to be handed out. -/
def Pc.uses {Socket : Type} : Pc Socket → Option (ℕ × Option Socket)
  | .registerDone id k => some (id, some k)
  | .dropLock id | .dropRemove id => some (id, none)
  | _ => none

/-- What a thread still has to do once the flag is set. -/
def Pc.work {Socket : Type} : Pc Socket → ℕ
  | .idle => 0
  | .registerLock _ => 4
  | .registerCheck _ => 3
  | .registerShut _ | .registerInsert _ => 2
  | .registerRefuse _ | .registerDone _ _ => 1
  | .dropLock _ => 2
  | .dropRemove _ => 1
  | .waitFirst => 8
  | .waitLock => 7
  | .waitPark => 6
  | .waiting => 5
  | .waitWake => 4
  | .waitTest => 3
  | .waitLast => 2
  | .waitDone _ => 1
  | .mutateLock => 2
  | .mutateCheck => 1
  | .stopStore _ => 7
  | .stopLock _ => 6
  | .stopShut _ => 5
  | .stopUnlock _ => 4
  | .stopNotify _ => 3
  | .barrierLock => 2
  | .barrierDrop => 1

/-- The points inside `register`, the drop of a lease and `wait_or_stop`. -/
def Pc.blocks {Socket : Type} : Pc Socket → Bool
  | .registerLock _ | .registerCheck _ | .registerShut _ | .registerRefuse _ | .registerInsert _
  | .registerDone _ _ | .dropLock _ | .dropRemove _ | .waitFirst | .waitLock | .waitTest | .waitPark
  | .waiting | .waitWake | .waitLast | .waitDone _ => true
  | _ => false

/-- The lifecycle, the leases and permits it has given out, and the threads. -/
structure World (Thread Socket : Type) where
  stopped : Bool
  /-- How many numbers `next_socket_id` has given out. -/
  fetched : ℕ
  /-- Who has locked the registry. -/
  holder : Option Thread
  sockets : ExtTreeMap ℕ Socket
  /-- The read sides of the gate that calls hold, and those that became permits. -/
  guards : List Thread
  permits : List Thread
  /-- Who has the write side of the gate. -/
  writer : Option Thread
  /-- The sockets that were shut down. -/
  shut : List Socket
  leases : List (ℕ × Socket)
  pc : Thread → Pc Socket

/-- What can be seen of a step.  `call` is the start of a call or the drop of a permit, `lapse` a wait
that ends for its timeout or for no reason, and `act` any other action inside a call. -/
inductive Label (Thread Socket : Type)
  | call
  | lapse
  | act
  | registered (k : Socket)
  | refused (k : Socket) (cloned : Bool)
  | waited (t : Thread) (b : Bool)
  | granted
  | denied
  | requested
  | stopped

/-- The steps that a call takes by itself, whatever the clock and the environment do. -/
def Label.certain {Thread Socket : Type} : Label Thread Socket → Bool
  | .call | .lapse | .refused _ false => false
  | _ => true

namespace World

variable {Thread Socket : Type} [DecidableEq Thread]

/-- `P2pLifecycle::new`, before any call. -/
def new : World Thread Socket where
  stopped := false
  fetched := 0
  holder := none
  sockets := ∅
  guards := []
  permits := []
  writer := none
  shut := []
  leases := []
  pc _ := .idle

section Goto

variable (s : World Thread Socket) (t : Thread) (p : Pc Socket)

/-- The number that `fetch_add` returns: the counter starts at 1 and wraps around. -/
def nextSocketId : ℕ := (s.fetched + 1) % 2 ^ 64

/-- A thread goes on. -/
def goto : World Thread Socket := { s with pc := Function.update s.pc t p }

def lock : World Thread Socket := { s with holder := some t }

def unlock : World Thread Socket := { s with holder := none }

/-- A parked wait that is notified. -/
def woken : Pc Socket → Pc Socket
  | .waiting => .waitWake
  | p => p

theorem woken_ne_waiting : woken p ≠ .waiting := by cases p <;> simp [woken]

/-- What `request_stop` leads to. -/
def afterStop (barrier : Bool) : Pc Socket := if barrier then .barrierLock else .idle

@[simp] theorem goto_pc (u : Thread) : (s.goto t p).pc u = if u = t then p else s.pc u := by
  simp [goto, Function.update_apply]

@[simp] theorem goto_stopped : (s.goto t p).stopped = s.stopped := rfl

@[simp] theorem goto_holder : (s.goto t p).holder = s.holder := rfl

@[simp] theorem goto_fetched : (s.goto t p).fetched = s.fetched := rfl

@[simp] theorem goto_sockets : (s.goto t p).sockets = s.sockets := rfl

@[simp] theorem goto_permits : (s.goto t p).permits = s.permits := rfl

@[simp] theorem goto_shut : (s.goto t p).shut = s.shut := rfl

@[simp] theorem goto_leases : (s.goto t p).leases = s.leases := rfl

end Goto

variable [DecidableEq Socket]

/-- **One action of one thread.** -/
inductive Step (t : Thread) : World Thread Socket → Label Thread Socket → World Thread Socket → Prop
  -- `register`
  | callRegister {s} (k : Socket) (h : s.pc t = .idle) : Step t s .call (s.goto t (.registerLock k))
  | cloneFails {s} (k : Socket) (h : s.pc t = .idle) : Step t s (.refused k false) s
  | registerLock {s k} (h : s.pc t = .registerLock k) (hfree : s.holder = none) :
      Step t s .act ((s.lock t).goto t (.registerCheck k))
  | registerStopped {s k} (h : s.pc t = .registerCheck k) (hstop : s.stopped = true) :
      Step t s .act (s.goto t (.registerShut k))
  | registerOpen {s k} (h : s.pc t = .registerCheck k) (hstop : s.stopped = false) :
      Step t s .act (s.goto t (.registerInsert k))
  | registerShut {s k} (h : s.pc t = .registerShut k) :
      Step t s .act ({ s with shut := k :: s.shut }.goto t (.registerRefuse k))
  | registerRefuse {s k} (h : s.pc t = .registerRefuse k) :
      Step t s (.refused k true) (s.unlock.goto t .idle)
  | registerInsert {s k} (h : s.pc t = .registerInsert k) :
      Step t s .act ({ s with
        fetched := s.fetched + 1
        sockets := s.sockets.insert s.nextSocketId k }.goto t (.registerDone s.nextSocketId k))
  | registerDone {s id k} (h : s.pc t = .registerDone id k) :
      Step t s (.registered k) ({ s.unlock with leases := (id, k) :: s.leases }.goto t .idle)
  -- `SocketLease::drop`
  | callDrop {s} {x : ℕ × Socket} (h : s.pc t = .idle) (hx : x ∈ s.leases) :
      Step t s .call ({ s with leases := s.leases.erase x }.goto t (.dropLock x.1))
  | dropLock {s id} (h : s.pc t = .dropLock id) (hfree : s.holder = none) :
      Step t s .act ((s.lock t).goto t (.dropRemove id))
  | dropRemove {s id} (h : s.pc t = .dropRemove id) :
      Step t s .act ({ s.unlock with sockets := s.sockets.erase id }.goto t .idle)
  -- `wait_or_stop`
  | callWait {s} (h : s.pc t = .idle) : Step t s .call (s.goto t .waitFirst)
  | waitStopped {s} (h : s.pc t = .waitFirst) (hstop : s.stopped = true) :
      Step t s (.waited t true) (s.goto t .idle)
  | waitOpen {s} (h : s.pc t = .waitFirst) (hstop : s.stopped = false) : Step t s .act (s.goto t .waitLock)
  | waitLock {s} (h : s.pc t = .waitLock) (hfree : s.holder = none) :
      Step t s .act ((s.lock t).goto t .waitTest)
  | waitOver {s} (h : s.pc t = .waitTest) (hstop : s.stopped = true) : Step t s .act (s.goto t .waitLast)
  | waitElapsed {s} (h : s.pc t = .waitTest) (hstop : s.stopped = false) : Step t s .lapse (s.goto t .waitLast)
  | waitOn {s} (h : s.pc t = .waitTest) (hstop : s.stopped = false) : Step t s .act (s.goto t .waitPark)
  | waitPark {s} (h : s.pc t = .waitPark) : Step t s .act (s.unlock.goto t .waiting)
  | waitLapse {s} (h : s.pc t = .waiting) : Step t s .lapse (s.goto t .waitWake)
  | waitWake {s} (h : s.pc t = .waitWake) (hfree : s.holder = none) :
      Step t s .act ((s.lock t).goto t .waitTest)
  | waitLast {s} (h : s.pc t = .waitLast) : Step t s .act (s.goto t (.waitDone s.stopped))
  | waitDone {s b} (h : s.pc t = .waitDone b) : Step t s (.waited t b) (s.unlock.goto t .idle)
  -- `begin_mutation` and the drop of a permit
  | callMutate {s} (h : s.pc t = .idle) : Step t s .call (s.goto t .mutateLock)
  | mutateLock {s} (h : s.pc t = .mutateLock) (hfree : s.writer = none) :
      Step t s .act ({ s with guards := t :: s.guards }.goto t .mutateCheck)
  | mutateDeny {s} (h : s.pc t = .mutateCheck) (hstop : s.stopped = true) :
      Step t s .denied ({ s with guards := s.guards.erase t }.goto t .idle)
  | mutateGrant {s} (h : s.pc t = .mutateCheck) (hstop : s.stopped = false) :
      Step t s .granted
        ({ s with guards := s.guards.erase t, permits := t :: s.permits }.goto t .idle)
  | dropPermit {s} {u : Thread} (hu : u ∈ s.permits) :
      Step t s .call { s with permits := s.permits.erase u }
  -- `request_stop` and `stop`
  | callStop {s} (barrier : Bool) (h : s.pc t = .idle) : Step t s .call (s.goto t (.stopStore barrier))
  | stopStore {s b} (h : s.pc t = .stopStore b) :
      Step t s .requested ({ s with stopped := true }.goto t (.stopLock b))
  | stopLock {s b} (h : s.pc t = .stopLock b) (hfree : s.holder = none) :
      Step t s .act ((s.lock t).goto t (.stopShut b))
  | stopShut {s b} (h : s.pc t = .stopShut b) :
      Step t s .act ({ s with shut := s.sockets.toList.map Prod.snd ++ s.shut }.goto t (.stopUnlock b))
  | stopUnlock {s b} (h : s.pc t = .stopUnlock b) : Step t s .act (s.unlock.goto t (.stopNotify b))
  | stopNotify {s b} (h : s.pc t = .stopNotify b) :
      Step t s .act ({ s with pc := fun u => woken (s.pc u) }.goto t (afterStop b))
  | barrierLock {s} (h : s.pc t = .barrierLock) (hguards : s.guards = []) (hpermits : s.permits = [])
      (hfree : s.writer = none) : Step t s .act ({ s with writer := some t }.goto t .barrierDrop)
  | barrierDrop {s} (h : s.pc t = .barrierDrop) :
      Step t s .stopped ({ s with writer := none }.goto t .idle)

/-- A step of some thread. -/
def Moves (s s' : World Thread Socket) : Prop := ∃ t l, Step t s l s'

/-- The worlds that are reached from the start. -/
def Reachable (s : World Thread Socket) : Prop := Relation.ReflTransGen Moves new s

/-! ## The mutex -/

/-- **The registry is locked by the thread whose program says so.** -/
def Locked (s : World Thread Socket) : Prop := ∀ t, (s.pc t).holds = true ↔ s.holder = some t

variable {s s' : World Thread Socket} {t : Thread} {l : Label Thread Socket}

/-- Where a thread comes from that has just reached one of these points. -/
def Enters (t : Thread) (s s' : World Thread Socket) : Pc Socket → Prop
  | .registerInsert _ | .waitPark => s.stopped = false ∧ s'.stopped = false
  | .registerDone _ k => s.pc t = .registerInsert k
  | .registerRefuse k => k ∈ s'.shut
  | .waiting => s.pc t = .waitPark
  | .waitDone b => b = s.stopped
  | .barrierDrop => s.pc t = .barrierLock ∧ s'.permits = []
  | _ => True

section Step

variable (hs : Step t s l s')
include hs

/-- A step moves no other thread, except that a notification wakes the parked waits. -/
theorem Step.pc_other {u : Thread} (hut : u ≠ t) :
    s'.pc u = s.pc u ∨ s.pc u = .waiting ∧ s'.pc u = .waitWake ∧ ∃ b, s.pc t = .stopNotify b := by
  cases hs with
  | stopNotify h =>
    simp only [goto_pc, if_neg hut]
    cases hu : s.pc u <;> simp [woken, h]
  | _ => exact .inl (by simp [hut, lock, unlock])

theorem Step.pc_kept {u : Thread} (hut : u ≠ t) (hwake : s'.pc u ≠ .waitWake) :
    s'.pc u = s.pc u := by
  rcases hs.pc_other hut with heq | ⟨-, hu, -⟩
  · exact heq
  · exact absurd hu hwake

/-- A thread stays where it is, or it enters the next point. -/
theorem Step.enters : s'.pc t = s.pc t ∨ Enters t s s' (s'.pc t) := by
  cases hs with
  | cloneFails | dropPermit => exact .inl rfl
  | @stopNotify b => cases b <;> exact .inr (by simp [afterStop, Enters])
  | _ => exact .inr (by simp [*, Enters])

/-- The points that matter below are left alone by the steps of others. -/
theorem Step.reached {u : Thread} {p : Pc Socket} (hu : s'.pc u = p)
    (hwake : p ≠ .waitWake) : s.pc u = p ∨ u = t ∧ Enters t s s' p := by
  by_cases hut : u = t
  · subst hut
    rcases hs.enters with heq | henters
    · exact .inl (heq ▸ hu)
    · exact .inr ⟨rfl, hu ▸ henters⟩
  · exact .inl ((hs.pc_kept hut (hu ▸ hwake)).symm.trans hu)

/-- What a step does to the mutex: nothing, or its thread takes it when it is free, or releases it. -/
theorem Step.mutex :
    (s'.holder = s.holder ∧ (s'.pc t).holds = (s.pc t).holds) ∨
    (s.holder = none ∧ s'.holder = some t ∧ (s'.pc t).holds = true) ∨
    ((s.pc t).holds = true ∧ s'.holder = none ∧ (s'.pc t).holds = false) := by
  cases hs with
  | stopNotify h => cases ‹Bool› <;> simp [h, Pc.holds, afterStop]
  | cloneFails | dropPermit => exact .inl ⟨rfl, rfl⟩
  | registerLock h hfree | dropLock h hfree | waitLock h hfree | waitWake h hfree | stopLock h hfree =>
    exact .inr (.inl ⟨hfree, rfl, by simp [Pc.holds]⟩)
  | registerRefuse h | registerDone h | dropRemove h | waitPark h | waitDone h | stopUnlock h =>
    exact .inr (.inr ⟨by simp [h, Pc.holds], rfl, by simp [Pc.holds]⟩)
  | _ => exact .inl ⟨rfl, by simp [*, Pc.holds]⟩

theorem Step.locked (h : Locked s) : Locked s' := by
  intro u
  by_cases hut : u = t
  · subst hut
    rcases hs.mutex with ⟨hholder, hpc⟩ | ⟨-, hholder, hpc⟩ | ⟨-, hholder, hpc⟩
    · rw [hpc, hholder]
      exact h u
    · simp [hpc, hholder]
    · simp [hpc, hholder]
  · have hsame : (s'.pc u).holds = (s.pc u).holds := by
      rcases hs.pc_other hut with heq | ⟨hu, hu', -⟩
      · rw [heq]
      · rw [hu, hu']
        rfl
    rw [hsame, h u]
    rcases hs.mutex with ⟨hholder, -⟩ | ⟨hfree, hholder, -⟩ | ⟨hpc, hholder, -⟩
    · rw [hholder]
    · simp [hfree, hholder, Ne.symm hut]
    · rw [(h t).mp hpc, hholder]
      simp [Ne.symm hut]

/-! ## The flag -/

/-- The flag is never taken back, and only `request_stop` sets it. -/
theorem Step.flag :
    s'.stopped = s.stopped ∨ s'.stopped = true ∧ ∃ b, s'.pc t = .stopLock b := by
  cases hs with
  | @stopStore b h => exact .inr ⟨rfl, b, by simp⟩
  | _ => exact .inl rfl

theorem Step.stopped (h : s.stopped = true) : s'.stopped = true := by
  rcases hs.flag with heq | ⟨heq, -⟩
  · rw [heq, h]
  · exact heq

end Step

/-- A thread is past the store only when the flag is set. -/
def Begun (s : World Thread Socket) : Prop := ∀ t, (s.pc t).stored = true → s.stopped = true

theorem Step.begun (hs : Step t s l s') (h : Begun s) : Begun s' := by
  intro u hu
  by_cases hut : u = t
  · subst hut
    have hown := h u
    cases hs with
    | stopStore => rfl
    | stopLock hpc | stopShut hpc | stopUnlock hpc | stopNotify hpc | barrierLock hpc =>
      exact hown (by simp [hpc, Pc.stored])
    | cloneFails | dropPermit => exact hown hu
    | _ => simp [Pc.stored] at hu
  · exact hs.stopped (h u (hs.pc_kept hut (fun hwake => by simp [hwake, Pc.stored] at hu) ▸ hu))

/-! ## The sweep -/

/-- **Everything registered has been shut down, and nothing will be registered any more.** -/
structure Swept (s : World Thread Socket) : Prop where
  stopped : s.stopped = true
  insert : ∀ t k, s.pc t ≠ .registerInsert k
  done : ∀ t id k, s.pc t ≠ .registerDone id k
  shut : ∀ (id : ℕ) k, s.sockets[id]? = some k → k ∈ s.shut

theorem Step.shut_subset (hs : Step t s l s') : s.shut ⊆ s'.shut := by
  cases hs with
  | registerShut => exact List.subset_cons_self _ _
  | stopShut => exact List.subset_append_right _ _
  | _ => exact List.Subset.refl _

/-- Sockets enter the registry in one place. -/
theorem Step.registry (hs : Step t s l s') (hinsert : ∀ k, s.pc t ≠ .registerInsert k) {id : ℕ} {k : Socket}
    (hk : s'.sockets[id]? = some k) : s.sockets[id]? = some k := by
  cases hs with
  | registerInsert h => exact absurd h (hinsert _)
  | dropRemove =>
    simp only [goto_sockets, getElem?_erase] at hk
    split at hk
    · exact nomatch hk
    · exact hk
  | _ => exact hk

theorem Step.swept (hs : Step t s l s') (h : Swept s) : Swept s' := by
  have hinsert (u : Thread) (k : Socket) : s'.pc u ≠ .registerInsert k := by
    intro hu
    rcases hs.reached hu nofun with hu | ⟨-, hstop, -⟩
    · exact h.insert u k hu
    · simp [h.stopped] at hstop
  refine ⟨hs.stopped h.stopped, hinsert, fun u id k hu => ?_, fun id k hk => ?_⟩
  · rcases hs.reached hu nofun with hu | ⟨rfl, hu⟩
    · exact h.done u id k hu
    · exact h.insert u k hu
  · exact hs.shut_subset (h.shut id k (hs.registry (h.insert t) hk))

/-- Whoever has swept the registry has left everything shut down. -/
def Sweeps (s : World Thread Socket) : Prop := ∀ t, (s.pc t).swept = true → Swept s

omit [DecidableEq Thread] [DecidableEq Socket] in
/-- The thread that has the mutex is the only one that is registering. -/
theorem Locked.sole (h : Locked s) {t u : Thread} (ht : (s.pc t).holds = true) (hu : (s.pc u).holds = true) : t = u :=
  Option.some.inj (((h t).mp ht).symm.trans ((h u).mp hu))

theorem Step.sweeps (hs : Step t s l s') (hlocked : Locked s) (hbegun : Begun s) (h : Sweeps s) : Sweeps s' := by
  intro u hu
  by_cases hut : u = t
  · subst hut
    have hown (hpc : (s.pc u).swept = true) : Swept s' := hs.swept (h u hpc)
    cases hs with
    | @stopShut b hpc =>
      have hholds : (s.pc u).holds = true := by simp [hpc, Pc.holds]
      -- the other threads are not registering: they do not have the mutex
      have hother (v : Thread) (hv : (s.pc v).holds = true) : s.pc v = .stopShut b :=
        hlocked.sole hholds hv ▸ hpc
      refine ⟨hbegun u (by simp [hpc, Pc.stored]), fun v k hv => ?_, fun v id k hv => ?_,
        fun id k hk => List.mem_append_left _ (List.mem_map.mpr
          ⟨(id, k), mem_toList_iff.mpr hk, rfl⟩)⟩
      all_goals
        by_cases hvu : v = u
        · simp [hvu] at hv
        · simp only [goto_pc, if_neg hvu] at hv
          rw [hother v (by simp [hv, Pc.holds])] at hv
          exact nomatch hv
    | stopUnlock hpc | stopNotify hpc | barrierLock hpc => exact hown (by simp [hpc, Pc.swept])
    | cloneFails | dropPermit => exact hown hu
    | _ => simp [Pc.swept] at hu
  · exact hs.swept (h u (hs.pc_kept hut (fun hwake => by simp [hwake, Pc.swept] at hu) ▸ hu))

/-! ## The gate -/

/-- **No permit is out, and none will be granted.** -/
structure Barred (s : World Thread Socket) : Prop where
  stopped : s.stopped = true
  permits : s.permits = []

theorem Step.barred (hs : Step t s l s') (h : Barred s) : Barred s' := by
  refine ⟨hs.stopped h.stopped, ?_⟩
  cases hs with
  | mutateGrant _ hstop =>
    rw [h.stopped] at hstop
    exact nomatch hstop
  | dropPermit => simp [h.permits]
  | _ => exact h.permits

/-- Whoever has crossed the barrier has left no permit behind. -/
def Bars (s : World Thread Socket) : Prop := ∀ t, s.pc t = .barrierDrop → Barred s

theorem Step.bars (hs : Step t s l s') (hbegun : Begun s) (h : Bars s) : Bars s' := by
  intro u hu
  rcases hs.reached hu nofun with hu | ⟨rfl, hpc, hpermits⟩
  · exact hs.barred (h u hu)
  · exact ⟨hs.stopped (hbegun u (by simp [hpc, Pc.stored])), hpermits⟩

/-! ## Leases -/

/-- The numbers that have been given out. -/
def Issued (s : World Thread Socket) (id : ℕ) : Prop := ∃ n < s.fetched, id = (n + 1) % 2 ^ 64

omit [DecidableEq Thread] [DecidableEq Socket] in
/-- Until the counter has gone around, its next number is new. -/
theorem Issued.ne_next {id : ℕ} (h : Issued s id) (hlt : s.fetched < 2 ^ 64) : id ≠ s.nextSocketId := by
  obtain ⟨n, hn, rfl⟩ := h
  rw [nextSocketId]
  omega

/-- **A lease names an entry of the registry, which is its own.** -/
structure Leased (s : World Thread Socket) : Prop where
  lease : ∀ x ∈ s.leases, s.sockets[x.1]? = some x.2
  done : ∀ (t : Thread) (id : ℕ) k, (s.pc t).uses = some (id, some k) → s.sockets[id]? = some k
  nodup : (s.leases.map Prod.fst).Nodup
  apart : ∀ t x, (s.pc t).uses = some x → ∀ y ∈ s.leases, y.1 ≠ x.1
  alone : ∀ t u x y, (s.pc t).uses = some x → (s.pc u).uses = some y → x.1 = y.1 → t = u
  issued : (∀ x ∈ s.leases, Issued s x.1) ∧ ∀ t x, (s.pc t).uses = some x → Issued s x.1

omit [DecidableEq Socket] in
/-- A thread that goes on without touching the books. -/
theorem uses_goto {p : Pc Socket} (h : p.uses = (s.pc t).uses) (u : Thread) : ((s.goto t p).pc u).uses = (s.pc u).uses := by
  rw [goto_pc]
  split
  · rename_i hut
    rw [h, hut]
  · rfl

/-- The four steps that touch the books; all others leave them alone. -/
theorem Step.books (hs : Step t s l s') :
    (s'.leases = s.leases ∧ s'.sockets = s.sockets ∧ s'.fetched = s.fetched ∧ ∀ u, (s'.pc u).uses = (s.pc u).uses) ∨
    (∃ k, s.pc t = .registerInsert k ∧ s' = { s with
      fetched := s.fetched + 1
      sockets := s.sockets.insert s.nextSocketId k }.goto t (.registerDone s.nextSocketId k)) ∨
    (∃ id k, s.pc t = .registerDone id k ∧ s' = { s.unlock with leases := (id, k) :: s.leases }.goto t .idle) ∨
    (∃ x ∈ s.leases, s.pc t = .idle ∧ s' = { s with leases := s.leases.erase x }.goto t (.dropLock x.1)) ∨
    (∃ id, s.pc t = .dropRemove id ∧ s' = { s.unlock with sockets := s.sockets.erase id }.goto t .idle) := by
  cases hs with
  | registerInsert h => exact .inr (.inl ⟨_, h, rfl⟩)
  | registerDone h => exact .inr (.inr (.inl ⟨_, _, h, rfl⟩))
  | callDrop h hx => exact .inr (.inr (.inr (.inl ⟨_, hx, h, rfl⟩)))
  | dropRemove h => exact .inr (.inr (.inr (.inr ⟨_, h, rfl⟩)))
  | cloneFails | dropPermit => exact .inl ⟨rfl, rfl, rfl, fun _ => rfl⟩
  | @stopNotify b h =>
    refine .inl ⟨rfl, rfl, rfl, fun u => ?_⟩
    rw [goto_pc]
    split_ifs with hut
    · cases b <;> simp [hut, h, afterStop, Pc.uses]
    · cases hu : s.pc u <;> simp [hu, woken, Pc.uses]
  | _ => exact .inl ⟨rfl, rfl, rfl, uses_goto (by simp [*, Pc.uses, lock, unlock])⟩

omit [DecidableEq Socket] in
/-- What the threads use after one of them has moved on. -/
theorem uses_of_goto {p : Pc Socket} {u : Thread} {x : ℕ × Option Socket} (hu : ((s.goto t p).pc u).uses = some x) :
    (u = t ∧ p.uses = some x) ∨ u ≠ t ∧ (s.pc u).uses = some x := by
  rw [goto_pc] at hu
  split at hu
  · exact .inl ⟨‹_›, hu⟩
  · exact .inr ⟨‹_›, hu⟩

omit [DecidableEq Socket] in
theorem uses_of_goto_idle {u : Thread} {x : ℕ × Option Socket}
    (hu : ((s.goto t .idle).pc u).uses = some x) : u ≠ t ∧ (s.pc u).uses = some x := by
  rcases uses_of_goto hu with ⟨-, hidle⟩ | hu
  · exact nomatch hidle
  · exact hu

omit [DecidableEq Socket] in
/-- A new number is none of those in use. -/
theorem Leased.insert (h : Leased s) (hlt : s.fetched < 2 ^ 64) (t : Thread) (k : Socket) : Leased ({ s with
    fetched := s.fetched + 1
    sockets := s.sockets.insert s.nextSocketId k }.goto t (.registerDone s.nextSocketId k)) := by
  have hfresh {id : ℕ} (hid : Issued s id) : s.nextSocketId ≠ id := (hid.ne_next hlt).symm
  have hmore {id : ℕ} (hid : Issued s id) : ∃ n < s.fetched + 1, id = (n + 1) % 2 ^ 64 := by
    obtain ⟨n, hn, rfl⟩ := hid
    exact ⟨n, Nat.lt_succ_of_lt hn, rfl⟩
  refine ⟨fun x hx => ?_, fun u id k' hu => ?_, h.nodup, fun u x hu y hy => ?_, fun u v x y hu hv hxy => ?_,
    fun x hx => hmore (h.issued.1 x hx), fun u x hu => ?_⟩
  · simp only [goto_sockets, getElem?_insert]
    rw [if_neg (hfresh (h.issued.1 x hx))]
    exact h.lease x hx
  · simp only [goto_sockets, getElem?_insert]
    rcases uses_of_goto hu with ⟨-, heq⟩ | ⟨-, hu⟩
    · obtain ⟨rfl, hk⟩ := Prod.mk.inj (Option.some.inj heq)
      rw [if_pos rfl, hk]
    · rw [if_neg (hfresh (h.issued.2 u _ hu))]
      exact h.done u id k' hu
  · rcases uses_of_goto hu with ⟨-, heq⟩ | ⟨-, hu⟩
    · rw [← Option.some.inj heq]
      exact (hfresh (h.issued.1 y hy)).symm
    · exact h.apart u x hu y hy
  · rcases uses_of_goto hu with ⟨hut, hx⟩ | ⟨-, hu'⟩ <;> rcases uses_of_goto hv with ⟨hvt, hy⟩ | ⟨-, hv'⟩
    · exact hut.trans hvt.symm
    · rw [← Option.some.inj hx] at hxy
      exact absurd hxy (hfresh (h.issued.2 v y hv'))
    · rw [← Option.some.inj hy] at hxy
      exact absurd hxy.symm (hfresh (h.issued.2 u x hu'))
    · exact h.alone u v x y hu' hv' hxy
  · rcases uses_of_goto hu with ⟨-, heq⟩ | ⟨-, hu⟩
    · rw [← Option.some.inj heq]
      exact ⟨s.fetched, Nat.lt_succ_self _, rfl⟩
    · exact hmore (h.issued.2 u x hu)

omit [DecidableEq Socket] in
/-- A number goes from a call to a lease. -/
theorem Leased.grant (h : Leased s) {id : ℕ} {k : Socket} (hpc : s.pc t = .registerDone id k) :
    Leased ({ s.unlock with leases := (id, k) :: s.leases }.goto t .idle) := by
  have hown : (s.pc t).uses = some (id, some k) := by rw [hpc, Pc.uses]
  refine ⟨?_, fun u id' k' hu => h.done u id' k' (uses_of_goto_idle hu).2, ?_, fun u x hu => ?_,
    fun u v x y hu hv => h.alone u v x y (uses_of_goto_idle hu).2 (uses_of_goto_idle hv).2, ?_,
    fun u x hu => h.issued.2 u x (uses_of_goto_idle hu).2⟩
  · exact List.forall_mem_cons.mpr ⟨h.done t id k hown, h.lease⟩
  · refine List.nodup_cons.mpr ⟨fun hmem => ?_, h.nodup⟩
    obtain ⟨y, hy, hid⟩ := List.mem_map.mp hmem
    exact h.apart t _ hown y hy hid
  · obtain ⟨hut, hu⟩ := uses_of_goto_idle hu
    exact List.forall_mem_cons.mpr ⟨fun hid => hut (h.alone u t x _ hu hown hid.symm), h.apart u x hu⟩
  · exact List.forall_mem_cons.mpr ⟨h.issued.2 t _ hown, h.issued.1⟩

/-- A number goes from a lease to the call that drops it. -/
theorem Leased.drop (h : Leased s) {x : ℕ × Socket} (hx : x ∈ s.leases) (t : Thread) :
    Leased ({ s with leases := s.leases.erase x }.goto t (.dropLock x.1)) := by
  have hsub {y : ℕ × Socket} (hy : y ∈ s.leases.erase x) : y ∈ s.leases := List.mem_of_mem_erase hy
  have hother {y : ℕ × Socket} (hy : y ∈ s.leases.erase x) : y.1 ≠ x.1 := by
    intro heq
    have hne := ((h.nodup.of_map _).mem_erase_iff.mp hy).1
    exact hne (List.inj_on_of_nodup_map h.nodup (hsub hy) hx heq)
  refine ⟨fun y hy => h.lease y (hsub hy), fun u id k hu => ?_, h.nodup.sublist (List.erase_sublist.map _),
    fun u y hu z hz => ?_, fun u v y z hu hv hyz => ?_, fun y hy => h.issued.1 y (hsub hy), fun u y hu => ?_⟩
  · rcases uses_of_goto hu with ⟨-, heq⟩ | ⟨-, hu⟩
    · exact nomatch heq
    · exact h.done u id k hu
  · rcases uses_of_goto hu with ⟨-, heq⟩ | ⟨-, hu⟩
    · rw [← Option.some.inj heq]
      exact hother hz
    · exact h.apart u y hu z (hsub hz)
  · rcases uses_of_goto hu with ⟨hut, hy⟩ | ⟨-, hu'⟩ <;> rcases uses_of_goto hv with ⟨hvt, hz⟩ | ⟨-, hv'⟩
    · exact hut.trans hvt.symm
    · rw [← Option.some.inj hy] at hyz
      exact absurd hyz (h.apart v z hv' x hx)
    · rw [← Option.some.inj hz] at hyz
      exact absurd hyz.symm (h.apart u y hu' x hx)
    · exact h.alone u v y z hu' hv' hyz
  · rcases uses_of_goto hu with ⟨-, heq⟩ | ⟨-, hu⟩
    · rw [← Option.some.inj heq]
      exact h.issued.1 x hx
    · exact h.issued.2 u y hu

omit [DecidableEq Socket] in
/-- The entry that a drop removes is its own. -/
theorem Leased.remove (h : Leased s) {id : ℕ} (hpc : s.pc t = .dropRemove id) :
    Leased ({ s.unlock with sockets := s.sockets.erase id }.goto t .idle) := by
  have hown : (s.pc t).uses = some (id, none) := by rw [hpc, Pc.uses]
  refine ⟨fun x hx => ?_, fun u id' k hu => ?_, h.nodup,
    fun u x hu => h.apart u x (uses_of_goto_idle hu).2,
    fun u v x y hu hv => h.alone u v x y (uses_of_goto_idle hu).2 (uses_of_goto_idle hv).2,
    h.issued.1, fun u x hu => h.issued.2 u x (uses_of_goto_idle hu).2⟩
  · simp only [goto_sockets, getElem?_erase]
    rw [if_neg (h.apart t _ hown x hx).symm]
    exact h.lease x hx
  · obtain ⟨hut, hu⟩ := uses_of_goto_idle hu
    simp only [goto_sockets, getElem?_erase]
    rw [if_neg fun hid => hut (h.alone u t _ _ hu hown hid.symm)]
    exact h.done u id' k hu

theorem Step.leased (hs : Step t s l s') (hlt : s'.fetched ≤ 2 ^ 64) (h : Leased s) : Leased s' := by
  rcases hs.books with ⟨hleases, hsockets, hfetched, huses⟩ | ⟨k, hpc, rfl⟩ | ⟨id, k, hpc, rfl⟩ |
    ⟨x, hx, hpc, rfl⟩ | ⟨id, hpc, rfl⟩
  · have hissued (id : ℕ) : Issued s' id ↔ Issued s id := by rw [Issued, Issued, hfetched]
    refine ⟨?_, ?_, ?_, ?_, ?_, ?_⟩
    all_goals simp only [hleases, hsockets, huses, hissued]
    exacts [h.lease, h.done, h.nodup, h.apart, h.alone, h.issued]
  · exact h.insert hlt t k
  · exact h.grant hpc
  · exact h.drop hx t
  · exact h.remove hpc

theorem Step.fetched_le (hs : Step t s l s') : s.fetched ≤ s'.fetched := by
  rcases hs.books with ⟨-, -, hfetched, -⟩ | ⟨k, -, rfl⟩ | ⟨id, k, -, rfl⟩ | ⟨x, -, -, rfl⟩ | ⟨id, -, rfl⟩
  · exact hfetched.ge
  · exact Nat.le_succ _
  all_goals exact le_rfl

/-! ## Waits -/

/-- **No wakeup is lost:** once the flag is set, a wait is parked, or about to be, only while a thread
that will notify it is on its way. -/
structure Watched (s : World Thread Socket) : Prop where
  parking : ∀ t, s.pc t = .waitPark → ∃ u b, s.pc u = .stopLock b
  parked : ∀ t, s.pc t = .waiting → ∃ u, (s.pc u).notifies = true

/-- A thread that is to notify the waits does so before it leaves. -/
theorem Step.notifies (hs : Step t s l s') (h : (s.pc t).notifies = true) :
    (s'.pc t).notifies = true ∨ ∀ u, s'.pc u ≠ .waiting := by
  cases hs with
  | @stopNotify b =>
    refine .inr fun u => ?_
    rw [goto_pc]
    split
    · cases b <;> simp [afterStop]
    · exact woken_ne_waiting _
  | cloneFails | dropPermit => exact .inl h
  | stopLock | stopShut | stopUnlock => exact .inl (by simp [Pc.notifies])
  | _ => simp [*, Pc.notifies] at h

theorem Step.watched (hs : Step t s l s') (hlocked : Locked s) (h : s.stopped = true → Watched s)
    (hstop : s'.stopped = true) : Watched s' := by
  -- a thread that has just stored the flag is on its way
  have hnew (hold : s.stopped = false) : ∃ b, s'.pc t = .stopLock b := by
    rcases hs.flag with heq | ⟨-, hb⟩
    · rw [hstop, hold] at heq
      exact nomatch heq
    · exact hb
  refine ⟨fun u hu => ?_, fun u hu => ?_⟩
  · have hu' : s.pc u = .waitPark := (hs.reached hu nofun).resolve_right fun h => by
      simp [Enters, hstop] at h
    cases hold : s.stopped with
    | false =>
      obtain ⟨b, hb⟩ := hnew hold
      exact ⟨t, b, hb⟩
    | true =>
      obtain ⟨v, b, hv⟩ := (h hold).parking u hu'
      refine ⟨v, b, ?_⟩
      by_cases hvt : v = t
      · subst hvt
        -- it cannot take the mutex, which the wait has
        have hheld : s.holder = some u := (hlocked u).mp (by simp [hu', Pc.holds])
        cases hs with
        | stopLock _ hfree => simp [hheld] at hfree
        | cloneFails | dropPermit => exact hv
        | _ => simp_all
      · rcases hs.pc_other hvt with heq | ⟨hwait, -, -⟩
        · rw [heq, hv]
        · simp [hv] at hwait
  · have hkeep {v : Thread} (hv : (s.pc v).notifies = true) : ∃ v, (s'.pc v).notifies = true := by
      by_cases hvt : v = t
      · subst hvt
        rcases hs.notifies hv with hv' | hnone
        · exact ⟨v, hv'⟩
        · exact absurd hu (hnone u)
      · rcases hs.pc_other hvt with heq | ⟨hwait, -, -⟩
        · exact ⟨v, heq ▸ hv⟩
        · simp [hwait, Pc.notifies] at hv
    cases hold : s.stopped with
    | false =>
      obtain ⟨b, hb⟩ := hnew hold
      exact ⟨t, by rw [hb, Pc.notifies]⟩
    | true =>
      rcases hs.reached hu nofun with hu' | ⟨rfl, hu'⟩
      · obtain ⟨v, hv⟩ := (h hold).parked u hu'
        exact hkeep hv
      · obtain ⟨v, b, hv⟩ := (h hold).parking u hu'
        exact hkeep (v := v) (by rw [hv, Pc.notifies])

/-- Once the flag is set, a wait that has not read it for the last time will find it set. -/
theorem Step.heeded (hs : Step t s l s') (hstop : s.stopped = true) {u : Thread} (hu : s.pc u ≠ .waitDone false) :
    s'.pc u ≠ .waitDone false := by
  intro hu'
  rcases hs.reached hu' nofun with hu' | ⟨-, hread⟩
  · exact hu hu'
  · simp [Enters, hstop] at hread

/-! ## All runs -/

/-- A registration that is refused has shut its socket down. -/
def Refuses (s : World Thread Socket) : Prop := ∀ t k, s.pc t = .registerRefuse k → k ∈ s.shut

theorem Step.refuses (hs : Step t s l s') (h : Refuses s) : Refuses s' := by
  intro u k hu
  rcases hs.reached hu nofun with hu | ⟨-, hshut⟩
  · exact hs.shut_subset (h u k hu)
  · exact hshut

/-- **What holds in every reachable world.** -/
structure Inv (s : World Thread Socket) : Prop where
  locked : Locked s
  begun : Begun s
  sweeps : Sweeps s
  bars : Bars s
  refuses : Refuses s
  watched : s.stopped = true → Watched s
  leased : s.fetched ≤ 2 ^ 64 → Leased s

omit [DecidableEq Thread] [DecidableEq Socket] in
theorem inv_new : Inv (new : World Thread Socket) where
  locked t := by simp [new, Pc.holds]
  begun t h := by simp [new, Pc.stored] at h
  sweeps t h := by simp [new, Pc.swept] at h
  bars t h := by simp [new] at h
  refuses t k h := by simp [new] at h
  watched h := by simp [new] at h
  leased _ := by constructor <;> simp [new, Pc.uses]

theorem Step.inv (hs : Step t s l s') (h : Inv s) : Inv s' where
  locked := hs.locked h.locked
  begun := hs.begun h.begun
  sweeps := hs.sweeps h.locked h.begun h.sweeps
  bars := hs.bars h.begun h.bars
  refuses := hs.refuses h.refuses
  watched := hs.watched h.locked h.watched
  leased hlt := hs.leased hlt (h.leased (hs.fetched_le.trans hlt))

/-- A run keeps what its steps keep. -/
theorem moves_invariant {Q : World Thread Socket → Prop} (hQ : ∀ {t l s s'}, Step t s l s' → Q s → Q s')
    (hrun : Relation.ReflTransGen Moves s s') (h : Q s) : Q s' := by
  induction hrun with
  | refl => exact h
  | tail _ hstep ih =>
    obtain ⟨t, l, hs⟩ := hstep
    exact hQ hs ih

theorem Reachable.inv (hr : Reachable s) : Inv s := moves_invariant Step.inv hr inv_new

/-! ## Progress -/

/-- A step that a call takes by itself. -/
def Advances (s s' : World Thread Socket) : Prop := ∃ t l, l.certain = true ∧ Step t s l s'

/-- **A call that runs by itself gets nearer to its end,** once the flag is set. -/
theorem Step.work_lt (hs : Step t s l s') (hl : l.certain = true) (hstop : s.stopped = true) :
    (s'.pc t).work < (s.pc t).work := by
  cases hs with
  | @stopNotify b h => cases b <;> simp [h, afterStop, Pc.work]
  | callRegister | callDrop | callWait | callMutate | callStop | waitElapsed | waitLapse | dropPermit | cloneFails =>
    exact nomatch hl
  | registerOpen _ hopen | waitOpen _ hopen | waitOn _ hopen | mutateGrant _ hopen =>
    rw [hstop] at hopen
    exact nomatch hopen
  | _ => simp [*, Pc.work]

theorem Step.work_le (hs : Step t s l s') {u : Thread} (hut : u ≠ t) : (s'.pc u).work ≤ (s.pc u).work := by
  rcases hs.pc_other hut with heq | ⟨hwait, hwake, -⟩
  · rw [heq]
  · simp [hwait, hwake, Pc.work]

/-- When nothing is left to do by itself, every call on the registry has returned. -/
theorem Inv.returned (h : Inv s) (hstop : s.stopped = true) (hdone : ∀ s', ¬Advances s s') (t : Thread) :
    (s.pc t).blocks = false := by
  have hstuck {u : Thread} {l} {s'} (hs : Step u s l s') : l.certain = false := by
    by_contra hl
    exact hdone s' ⟨u, l, by simpa using hl, hs⟩
  -- the holder of the mutex could go on, so there is none
  have hfree : s.holder = none := by
    by_contra hne
    obtain ⟨u, hu⟩ := Option.ne_none_iff_exists'.mp hne
    have hholds := (h.locked u).mpr hu
    cases hpc : s.pc u with
    | registerCheck k => exact nomatch hstuck (.registerStopped hpc hstop)
    | registerShut k => exact nomatch hstuck (.registerShut hpc)
    | registerRefuse k => exact nomatch hstuck (.registerRefuse hpc)
    | registerInsert k => exact nomatch hstuck (.registerInsert hpc)
    | registerDone id k => exact nomatch hstuck (.registerDone hpc)
    | dropRemove id => exact nomatch hstuck (.dropRemove hpc)
    | waitTest => exact nomatch hstuck (.waitOver hpc hstop)
    | waitPark => exact nomatch hstuck (.waitPark hpc)
    | waitLast => exact nomatch hstuck (.waitLast hpc)
    | waitDone b => exact nomatch hstuck (.waitDone hpc)
    | stopShut b => exact nomatch hstuck (.stopShut hpc)
    | stopUnlock b => exact nomatch hstuck (.stopUnlock hpc)
    | _ => simp [hpc, Pc.holds] at hholds
  have hidle (u : Thread) : (s.pc u).holds = false := by
    have := h.locked u
    rw [hfree] at this
    simpa using this
  cases hpc : s.pc t with
  | registerLock k => exact nomatch hstuck (.registerLock hpc hfree)
  | dropLock id => exact nomatch hstuck (.dropLock hpc hfree)
  | waitFirst => exact nomatch hstuck (.waitStopped hpc hstop)
  | waitLock => exact nomatch hstuck (.waitLock hpc hfree)
  | waitWake => exact nomatch hstuck (.waitWake hpc hfree)
  | waiting =>
    -- somebody is on the way to notify it
    obtain ⟨u, hu⟩ := (h.watched hstop).parked t hpc
    have hnot := hidle u
    cases hpc' : s.pc u with
    | stopLock b => exact nomatch hstuck (.stopLock hpc' hfree)
    | stopNotify b => exact nomatch hstuck (.stopNotify hpc')
    | stopShut b | stopUnlock b => simp [hpc', Pc.holds] at hnot
    | _ => simp [hpc', Pc.notifies] at hu
  | registerCheck | registerShut | registerRefuse | registerInsert | registerDone | dropRemove | waitTest | waitPark
  | waitLast | waitDone =>
    have hnot := hidle t
    simp [hpc, Pc.holds] at hnot
  | _ => rfl

section Progress

variable [Fintype Thread]

/-- What all threads together still have to do. -/
def work (s : World Thread Socket) : ℕ := ∑ t, (s.pc t).work

theorem Advances.work_lt (h : Advances s s') (hstop : s.stopped = true) : s'.work < s.work := by
  obtain ⟨t, l, hl, hs⟩ := h
  refine Finset.sum_lt_sum (fun u _ => ?_) ⟨t, Finset.mem_univ t, hs.work_lt hl hstop⟩
  by_cases hut : u = t
  · exact hut ▸ (hs.work_lt hl hstop).le
  · exact hs.work_le hut

/-- **Calls cannot go on by themselves forever.** -/
theorem not_advances_forever (hstop : s.stopped = true) (f : ℕ → World Thread Socket) (h0 : f 0 = s) :
    ∃ n, ¬Advances (f n) (f (n + 1)) := by
  by_contra hall
  push Not at hall
  have hsteps (n : ℕ) : (f n).stopped = true ∧ (f n).work + n ≤ s.work := by
    induction n with
    | zero => exact ⟨h0 ▸ hstop, by rw [h0]; exact le_rfl⟩
    | succ n ih =>
      obtain ⟨t, l, hl, hs⟩ := hall n
      have := (hall n).work_lt ih.1
      exact ⟨hs.stopped ih.1, by omega⟩
  have := (hsteps (s.work + 1)).2
  omega

end Progress

/-- **The shutdown barrier.**  In every interleaving of the calls of any number of threads:

* once a `stop` has returned, no permit is out and none is granted; every lease that has not been
  dropped is for a socket that was shut down; no registration succeeds, and one that is refused has
  shut its socket down, unless its handle could not be cloned;
* once a `request_stop` has stored the flag, every wait that has not yet read it for the last time,
  those parked and those that start later included, returns true, and none has to wait for its
  duration: the calls by themselves come to an end, and then every wait, registration and drop has
  returned. -/
theorem Reachable.shutdown [Fintype Thread] (hr : Reachable s) :
    (∀ t s₁, Step t s .stopped s₁ → ∀ s₂, Relation.ReflTransGen Moves s₁ s₂ →
      s₂.permits = [] ∧ (∀ u s₃, ¬Step u s₂ .granted s₃) ∧
      (s₂.fetched ≤ 2 ^ 64 → ∀ x ∈ s₂.leases, x.2 ∈ s₂.shut) ∧
      (∀ u k s₃, ¬Step u s₂ (.registered k) s₃) ∧ ∀ u k s₃, Step u s₂ (.refused k true) s₃ → k ∈ s₃.shut) ∧
    (∀ t s₁, Step t s .requested s₁ → s₁.stopped = true ∧ ∀ u, u ≠ t → s₁.pc u = s.pc u) ∧
    (s.stopped = true → ∀ s₂, Relation.ReflTransGen Moves s s₂ →
      (∀ u v b s₃, s.pc u ≠ .waitDone false → Step v s₂ (.waited u b) s₃ → b = true) ∧
      (∀ f : ℕ → World Thread Socket, f 0 = s₂ → ∃ n, ¬Advances (f n) (f (n + 1))) ∧
      ((∀ s₃, ¬Advances s₂ s₃) → ∀ u, (s₂.pc u).blocks = false)) := by
  have hinv := hr.inv
  refine ⟨fun t s₁ hs s₂ hrun => ?_, fun t s₁ hs => ?_, fun hstop s₂ hrun => ?_⟩
  · have hpc : s.pc t = .barrierDrop := by
      cases hs with
      | barrierDrop h => exact h
    have hbarred : Barred s₂ := moves_invariant Step.barred hrun (hs.barred (hinv.bars t hpc))
    have hswept : Swept s₂ :=
      moves_invariant Step.swept hrun (hs.swept (hinv.sweeps t (by rw [hpc, Pc.swept])))
    have hinv₂ : Inv s₂ := moves_invariant Step.inv hrun (hs.inv hinv)
    refine ⟨hbarred.permits, fun u s₃ hg => ?_, fun hlt x hx => ?_, fun u k s₃ hreg => ?_, fun u k s₃ href => ?_⟩
    · cases hg with
      | mutateGrant _ hopen =>
        rw [hbarred.stopped] at hopen
        exact nomatch hopen
    · exact hswept.shut x.1 x.2 ((hinv₂.leased hlt).lease x hx)
    · cases hreg with
      | registerDone h => exact hswept.done u _ k h
    · cases href with
      | registerRefuse h => exact hinv₂.refuses u k h
  · cases hs with
    | stopStore => exact ⟨rfl, fun u hut => by simp [hut]⟩
  · have hinv₂ : Inv s₂ := moves_invariant Step.inv hrun hinv
    have hstop₂ : s₂.stopped = true := moves_invariant (fun hs h => hs.stopped h) hrun hstop
    refine ⟨fun u v b s₃ hu hw => ?_, not_advances_forever hstop₂, hinv₂.returned hstop₂⟩
    have hu₂ := moves_invariant (Q := fun s => s.stopped = true ∧ s.pc u ≠ .waitDone false)
      (fun hs h => ⟨hs.stopped h.1, hs.heeded h.1 h.2⟩) hrun ⟨hstop, hu⟩
    cases hw with
    | waitStopped => rfl
    | @waitDone b h =>
      cases b with
      | true => rfl
      | false => exact absurd h hu₂.2

theorem Reachable.act (t : Thread) (hr : Reachable s) (hs : Step t s l s') : Reachable s' := hr.tail ⟨t, l, hs⟩

namespace Example

/-- The second thread is parked in a wait when the first begins to stop. -/
theorem parked : ∃ s s₁ : World Bool ℕ, Reachable s ∧ s.pc true = .waiting ∧ Step false s .requested s₁ ∧
    s₁.pc true = .waiting := by
  have h₁ : Reachable (_ : World Bool ℕ) := Relation.ReflTransGen.refl.tail ⟨true, _, .callWait rfl⟩
  have h₂ := ((h₁.act true (.waitOpen rfl rfl)).act true (.waitLock rfl rfl)).act true
    (.waitOn rfl rfl)
  have h₃ := (h₂.act true (.waitPark rfl)).act false (.callStop true rfl)
  exact ⟨_, _, h₃, rfl, .stopStore rfl, rfl⟩

/-- A thread has stopped the lifecycle. -/
theorem stopped : ∃ s s₁ : World Bool ℕ, Reachable s ∧ Step false s .stopped s₁ ∧ s₁.pc true = .idle ∧ s₁.shut = [] := by
  have h₁ : Reachable (_ : World Bool ℕ) := Relation.ReflTransGen.refl.tail ⟨false, _, .callStop true rfl⟩
  have h₂ := ((h₁.act false (.stopStore rfl)).act false (.stopLock rfl rfl)).act false (.stopShut rfl)
  have h₃ := ((h₂.act false (.stopUnlock rfl)).act false (.stopNotify rfl)).act false
    (.barrierLock rfl rfl rfl rfl)
  exact ⟨_, _, h₃, .barrierDrop rfl, rfl, by simp [lock, unlock, new]⟩

end Example

/-- The parked wait returns true, and the calls come to an end without its timeout. -/
theorem Reachable.shutdown_parked : ∃ s s₁ : World Bool ℕ, s.pc true = .waiting ∧ Step false s .requested s₁ ∧
    ∀ s₂, Relation.ReflTransGen Moves s₁ s₂ →
      (∀ v b s₃, Step v s₂ (.waited true b) s₃ → b = true) ∧
      ((∀ s₃, ¬Advances s₂ s₃) → (s₂.pc true).blocks = false) := by
  obtain ⟨s, s₁, hr, hwait, hs, hwait₁⟩ := Example.parked
  have hr₁ := hr.act false hs
  have hstop := (hr.shutdown.2.1 false s₁ hs).1
  refine ⟨s, s₁, hwait, hs, fun s₂ hrun => ?_⟩
  obtain ⟨htrue, -, hend⟩ := hr₁.shutdown.2.2 hstop s₂ hrun
  exact ⟨fun v b s₃ hw => htrue true v b s₃ (by rw [hwait₁]; nofun) hw, fun hdone => hend hdone true⟩

/-- After a `stop` has returned, a registration whose handle cannot be cloned fails and leaves its
socket open. -/
theorem late_register_leaves_open : ∃ s s₁ s₂ : World Bool ℕ, Reachable s ∧ Step false s .stopped s₁ ∧
    Step true s₁ (.refused 7 false) s₂ ∧ 7 ∉ s₂.shut := by
  obtain ⟨s, s₁, hr, hs, hidle, hshut⟩ := Example.stopped
  exact ⟨s, s₁, s₁, hr, hs, .cloneFails 7 hidle, by simp [hshut]⟩

end World

end Node
