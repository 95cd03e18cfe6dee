import Hogl.Engine.Ownership

namespace Hogl.Polling

open Hogl.Data Hogl.Ring

/-! # The rings of threads

`src/tls.cc`.  A thread posts into the default ring until a `tls` object gives
it another one; the objects of a thread are destroyed in reverse order, and
each of them puts the ring back that it found.  Every access to a reference
count is a step of its own. -/

/-- `default_ring`. -/
def initialRing : RingId := 0

/-- A `tls` object with `_previous_ring` and `_current_ring`. -/
structure Tls where
  previous : RingId
  current : RingId
deriving Repr, DecidableEq

/-- What a thread does next in a constructor or a destructor. -/
inductive TlsPc where
  | running
  /-- `add_ring` has found a ring and decides about it. -/
  | deciding (ring : RingId)
  /-- `_ring->hold()`. -/
  | holding (ring : RingId)
  /-- `_ring = _current_ring = r`. -/
  | setting (previous ring : RingId)
  /-- `_ring = _previous_ring`. -/
  | restoring (tls : Tls)
  /-- `_previous_ring->release()`. -/
  | releasing (tls : Tls)
  /-- `r->release()`. -/
  | dropping (ring : RingId)
deriving Repr, DecidableEq

/-- `tls::_ring` of a thread and its `tls` objects, the innermost first. -/
structure ThreadRing where
  ring : RingId
  stack : List Tls
  pc : TlsPc
deriving Repr, DecidableEq

/-- `loose` counts the references that are held outside of `tls` objects, and
`held` lists those that threads hold through them. -/
structure ThreadRings where
  engine : Engine
  threads : Nat → ThreadRing
  loose : RingId → Nat
  held : List Holding

inductive TlsAction where
  | engine (trylock : Bool)
  /-- A client step that neither takes nor drops a reference, such as a post. -/
  | use (op : Op)
  /-- Somebody else takes a reference, -/
  | hold (ring : RingId)
  /-- or drops one of these. -/
  | release (ring : RingId)
  /-- `tls(name, opts)`, up to the critical section of `add_ring`. -/
  | construct (thread : Nat) (made : RingId)
  /-- `tls(ringbuf *)`, which takes over a reference. -/
  | adopt (thread : Nat) (ring : RingId)
  /-- The destructor of the innermost object is called. -/
  | destroy (thread : Nat)
  | step (thread : Nat)
deriving Repr, DecidableEq

namespace ThreadRings

variable (std : StdSort) (flags : RingId → RingFlags) (state : ThreadRings)

def client (op : Op) : ThreadRings := { state with engine := state.engine.act std (.client op) }

def goto (thread : Nat) (place : ThreadRing) : ThreadRings :=
  { state with threads := Function.update state.threads thread place }

/-- A reference of a thread. -/
def take (thread : Nat) (ring : RingId) : ThreadRings :=
  { state with held := (thread, ring) :: state.held }

def give (thread : Nat) (ring : RingId) : ThreadRings :=
  { state.client std (.release ring) with held := state.held.erase (thread, ring) }

/-- A reference of somebody else. -/
def loosen (ring : RingId) (count : Nat) : ThreadRings :=
  { state with loose := Function.update state.loose ring count }

def construct (thread : Nat) (made : RingId) : ThreadRings :=
  let place := state.threads thread
  if place.pc ≠ .running ∨ state.loose made = 0 ∨ made ∈ state.engine.shared.ringMap then state
  else
    let added := (state.client std (.addNamed made)).loosen made (state.loose made - 1)
    match state.engine.shared.findRing (state.engine.obj made).name with
    | none => (added.take thread made).goto thread { place with pc := .holding made }
    | some existing =>
        (added.take thread existing).goto thread { place with pc := .deciding existing }

def adopt (thread : Nat) (ring : RingId) : ThreadRings :=
  let place := state.threads thread
  if place.pc ≠ .running ∨ state.loose ring = 0 then state
  else ((state.loosen ring (state.loose ring - 1)).take thread ring).goto thread
    { place with pc := .holding ring }

def destroy (thread : Nat) : ThreadRings :=
  let place := state.threads thread
  match place.pc, place.stack with
  | .running, tls :: rest => state.goto thread { place with stack := rest, pc := .restoring tls }
  | _, _ => state

/-- Whether `add_ring` returns a ring it found. -/
def reuses (ring : RingId) : Bool :=
  (flags ring).shared || (flags ring).reusable && (state.engine.obj ring).refcnt == 2

def step (thread : Nat) : ThreadRings :=
  let place := state.threads thread
  match place.pc with
  | .running => state
  | .deciding ring =>
      if state.reuses flags ring then state.goto thread { place with pc := .holding ring }
      else
        -- `add_ring` has failed: an object without rings, which is never looked at again.
        (state.give std thread ring).goto thread { place with pc := .running }
  | .holding ring =>
      ((state.client std (.hold place.ring)).take thread place.ring).goto thread
        { place with pc := .setting place.ring ring }
  | .setting previous ring =>
      state.goto thread
        { ring, stack := { previous, current := ring } :: place.stack, pc := .running }
  | .restoring tls =>
      state.goto thread { place with ring := tls.previous, pc := .releasing tls }
  | .releasing tls =>
      (state.give std thread tls.previous).goto thread { place with pc := .dropping tls.current }
  | .dropping ring => (state.give std thread ring).goto thread { place with pc := .running }

def act : TlsAction → ThreadRings
  | .engine trylock => { state with engine := state.engine.act std (.engine trylock) }
  | .use op => if op.keepsReferences then state.client std op else state
  | .hold ring =>
      let obj := state.engine.obj ring
      if ring ∈ state.engine.shared.ringMap ∨ 0 < obj.clients ∨ obj.immortal then
        (state.client std (.hold ring)).loosen ring (state.loose ring + 1)
      else state
  | .release ring =>
      if state.loose ring = 0 then state
      else (state.client std (.release ring)).loosen ring (state.loose ring - 1)
  | .construct thread made => state.construct std thread made
  | .adopt thread ring => state.adopt thread ring
  | .destroy thread => state.destroy thread
  | .step thread => state.step std flags thread

def create (capacity : UInt32) (tsoDisabled : Bool) (timesource : UInt64)
    (rings : RingId → RingObj) : ThreadRings where
  engine := .create capacity tsoDisabled timesource rings
  threads _ := { ring := initialRing, stack := [], pc := .running }
  loose ring := (rings ring).clients
  held := []

def after (start : ThreadRings) (actions : List TlsAction) : ThreadRings :=
  runs (act std flags) start actions

/-- The ring was not deleted. -/
def Alive (ring : RingId) : Prop :=
  (state.engine.obj ring).immortal = true ∨ 0 < (state.engine.obj ring).refcnt

end ThreadRings

/-! ## The references of a thread -/

def Tls.refs (tls : Tls) : List RingId := [tls.previous, tls.current]

def TlsPc.refs : TlsPc → List RingId
  | .running => []
  | .deciding ring | .holding ring | .dropping ring => [ring]
  | .setting previous ring => [previous, ring]
  | .restoring tls | .releasing tls => tls.refs

/-- The ring of the innermost object. -/
def topRing : List Tls → RingId
  | [] => initialRing
  | tls :: _ => tls.current

/-- Each object has found the ring of the one outside of it. -/
def Linked : List Tls → Prop
  | [] => True
  | tls :: rest => tls.previous = topRing rest ∧ Linked rest

namespace ThreadRing

variable (place : ThreadRing)

def refs : List RingId := place.pc.refs ++ place.stack.flatMap Tls.refs

def Nested : Prop :=
  Linked place.stack ∧
  match place.pc with
  | .restoring tls => place.ring = tls.current ∧ tls.previous = topRing place.stack
  | .releasing tls => place.ring = topRing place.stack ∧ tls.previous = topRing place.stack
  | .setting previous _ => place.ring = topRing place.stack ∧ previous = place.ring
  | _ => place.ring = topRing place.stack

/-- A thread posts into the default ring or into one that it refers to. -/
theorem Nested.ring_cases {place : ThreadRing} (nested : place.Nested) :
    place.ring = initialRing ∨ place.ring ∈ place.refs := by
  have top : topRing place.stack = initialRing ∨ topRing place.stack ∈ place.refs := by
    cases stack : place.stack with
    | nil => exact .inl rfl
    | cons tls rest =>
        refine .inr (List.mem_append_right _ ?_)
        rw [stack]
        exact List.mem_flatMap.mpr ⟨tls, List.mem_cons_self, List.mem_cons_of_mem _
          (List.mem_singleton.mpr rfl)⟩
  obtain ⟨-, stands⟩ := nested
  cases pc : place.pc with
  | restoring tls =>
      rw [pc] at stands
      refine .inr (List.mem_append_left _ ?_)
      rw [pc, stands.1]
      exact List.mem_cons_of_mem _ (List.mem_singleton.mpr rfl)
  | releasing tls | setting previous ring =>
      rw [pc] at stands
      exact stands.1 ▸ top
  | running | deciding ring | holding ring | dropping ring =>
      rw [pc] at stands
      exact stands ▸ top

end ThreadRing

/-! ## What every step keeps -/

namespace ThreadRings

variable {std : StdSort} {flags : RingId → RingFlags} {state : ThreadRings}

variable (std) in
theorem client_immortal (op : Op) (ring : RingId) :
    ((state.client std op).engine.obj ring).immortal = (state.engine.obj ring).immortal :=
  ((state.engine.shared.apply_step op).same ring).immortal

/-- How many of the references that threads hold go to the ring. -/
def heldTo (state : ThreadRings) (ring : RingId) : Nat := (state.held.map Prod.snd).count ring

/-- Every reference to a ring has an owner, and the objects of a thread are
nested. -/
structure Balanced (state : ThreadRings) : Prop where
  sound : state.engine.Sound
  immortal : (state.engine.obj initialRing).immortal = true
  counted : ∀ ring, (state.engine.obj ring).clients = state.loose ring + state.heldTo ring
  owned : ∀ thread ring, state.held.count (thread, ring) = (state.threads thread).refs.count ring
  nested : ∀ thread, (state.threads thread).Nested

namespace Balanced

variable {thread : Nat} {ring : RingId} {place : ThreadRing}

theorem held_of_refs (balanced : state.Balanced) (refers : ring ∈ (state.threads thread).refs) :
    (thread, ring) ∈ state.held := by
  have positive := List.count_pos_iff.mpr refers
  rw [← balanced.owned] at positive
  exact List.count_pos_iff.mp positive

theorem clients_pos (balanced : state.Balanced) (refers : ring ∈ (state.threads thread).refs) :
    0 < (state.engine.obj ring).clients := by
  have member : ring ∈ state.held.map Prod.snd :=
    List.mem_map.mpr ⟨_, balanced.held_of_refs refers, rfl⟩
  have positive : 0 < state.heldTo ring := List.count_pos_iff.mpr member
  have counted := balanced.counted ring
  omega

theorem alive (balanced : state.Balanced)
    (refers : ring = initialRing ∨ ring ∈ (state.threads thread).refs) : state.Alive ring := by
  rcases refers with rfl | refers
  · exact .inl balanced.immortal
  · have positive := balanced.clients_pos refers
    have refs := balanced.sound.registered.refs ring
    exact .inr (by omega)

/-- A step that moves no reference of a client. -/
theorem frame (balanced : state.Balanced) {engine : Engine} (sound : engine.Sound)
    (same : ∀ ring, (engine.obj ring).clients = (state.engine.obj ring).clients ∧
      (engine.obj ring).immortal = (state.engine.obj ring).immortal) :
    { state with engine }.Balanced where
  sound
  immortal := (same initialRing).2.trans balanced.immortal
  counted ring := (same ring).1.trans (balanced.counted ring)
  owned := balanced.owned
  nested := balanced.nested

/-- A thread moves on, and what it holds with it. -/
theorem transfers (balanced : state.Balanced) {next : ThreadRings} (sound : next.engine.Sound)
    (immortal : (next.engine.obj initialRing).immortal = (state.engine.obj initialRing).immortal)
    (counted : ∀ ring, (next.engine.obj ring).clients = next.loose ring + next.heldTo ring)
    (threads : next.threads = state.threads)
    (others : ∀ other, other ≠ thread → ∀ ring,
      next.held.count (other, ring) = state.held.count (other, ring))
    (own : ∀ ring, next.held.count (thread, ring) = place.refs.count ring) (nested : place.Nested) :
    (next.goto thread place).Balanced where
  sound
  immortal := immortal.trans balanced.immortal
  counted
  owned other ring := by
    change next.held.count (other, ring) =
      (Function.update next.threads thread place other).refs.count ring
    by_cases same : other = thread
    · subst same
      rw [Function.update_self]
      exact own ring
    · rw [Function.update_of_ne same, threads, others other same]
      exact balanced.owned other ring
  nested other := by
    change (Function.update next.threads thread place other).Nested
    by_cases same : other = thread
    · subst same
      rwa [Function.update_self]
    · rw [Function.update_of_ne same, threads]
      exact balanced.nested other

/-- It holds what it held before, -/
theorem moves (balanced : state.Balanced)
    (same : ∀ ring, place.refs.count ring = (state.threads thread).refs.count ring)
    (nested : place.Nested) : (state.goto thread place).Balanced :=
  balanced.transfers balanced.sound rfl balanced.counted rfl (fun _ _ _ => rfl)
    (fun ring => (balanced.owned thread ring).trans (same ring).symm) nested

/-- one reference more, -/
theorem takes (balanced : state.Balanced) {next : ThreadRings} (sound : next.engine.Sound)
    (immortal : (next.engine.obj initialRing).immortal = (state.engine.obj initialRing).immortal)
    (counted : ∀ other, (next.engine.obj other).clients =
      next.loose other + state.heldTo other + if other = ring then 1 else 0)
    (threads : next.threads = state.threads) (held : next.held = state.held)
    (same : ∀ other, place.refs.count other =
      (state.threads thread).refs.count other + if other = ring then 1 else 0)
    (nested : place.Nested) : ((next.take thread ring).goto thread place).Balanced := by
  refine @transfers state thread place balanced (next.take thread ring) sound immortal
    (fun other => ?_) threads (fun other different own => ?_) (fun other => ?_) nested
  · rw [heldTo, take, Ownership.count_cons, held, ← Nat.add_assoc]
    exact counted other
  · rw [take, held, List.count_cons_of_ne]
    exact fun equal => different (congrArg Prod.fst equal).symm
  · rw [take, held, List.count_cons, same, balanced.owned]
    simp only [beq_iff_eq, Prod.mk.injEq, true_and, @eq_comm _ ring]

/-- or one less. -/
theorem gives (balanced : state.Balanced) (refers : ring ∈ (state.threads thread).refs)
    (same : ∀ other, (state.threads thread).refs.count other =
      place.refs.count other + if other = ring then 1 else 0)
    (nested : place.Nested) : ((state.give std thread ring).goto thread place).Balanced := by
  have held := balanced.held_of_refs refers
  have positive := balanced.clients_pos refers
  have released : (state.engine.act std (.client (.release ring))).shared =
      state.engine.shared.release ring := if_neg (by exact positive.ne')
  refine @transfers state thread place balanced (state.give std thread ring)
    (balanced.sound.act std (.client (.release ring))) (client_immortal std _ _)
    (fun other => ?_) rfl (fun other different own => ?_)
    (fun other => ?_) nested
  · have counted := balanced.counted other
    have count := Ownership.count_erase held other
    change ((state.engine.act std (.client (.release ring))).shared.rings other).clients =
      state.loose other + ((state.held.erase (thread, ring)).map Prod.snd).count other
    rw [released, Shared.release_clients]
    change (state.engine.obj other).clients - _ = _
    rw [heldTo] at counted
    simp only at count
    omega
  · rw [give, List.count_erase_of_ne]
    exact fun equal => different (congrArg Prod.fst equal)
  · have owned := balanced.owned thread other
    rw [same] at owned
    rw [give, List.count_erase]
    simp only [beq_iff_eq, Prod.mk.injEq, true_and, @eq_comm _ ring]
    omega

theorem takes_hold (balanced : state.Balanced)
    (enabled : ring ∈ state.engine.shared.ringMap ∨ 0 < (state.engine.obj ring).clients ∨
      (state.engine.obj ring).immortal = true)
    (same : ∀ other, place.refs.count other =
      (state.threads thread).refs.count other + if other = ring then 1 else 0)
    (nested : place.Nested) :
    (((state.client std (.hold ring)).take thread ring).goto thread place).Balanced := by
  have held : (state.engine.act std (.client (.hold ring))).shared =
      state.engine.shared.hold ring := if_pos enabled
  refine @takes state thread ring place balanced (state.client std (.hold ring))
    (balanced.sound.act std (.client (.hold ring))) (client_immortal std _ _)
    (fun other => ?_) rfl rfl same nested
  change ((state.engine.act std (.client (.hold ring))).shared.rings other).clients = _
  rw [held, Shared.hold_clients]
  exact congrArg (· + _) (balanced.counted other)

theorem step (balanced : state.Balanced) (thread : Nat) :
    (state.step std flags thread).Balanced := by
  have nested := balanced.nested thread
  simp only [ThreadRings.step]
  cases pc : (state.threads thread).pc with
  | running => exact balanced
  | deciding ring =>
      dsimp only
      split
      · refine balanced.moves (fun other => ?_) ?_
        · simp only [ThreadRing.refs, pc, TlsPc.refs]
        · simpa only [ThreadRing.Nested, pc] using nested
      · refine balanced.gives ?_ (fun other => ?_) ?_
        · simp [ThreadRing.refs, pc, TlsPc.refs]
        · simp [ThreadRing.refs, pc, TlsPc.refs, List.count_cons, @eq_comm _ ring]
        · simpa only [ThreadRing.Nested, pc] using nested
  | holding ring =>
      refine balanced.takes_hold ?_ (fun other => ?_) ?_
      · rcases nested.ring_cases with initial | refers
        · rw [initial]
          exact .inr (.inr balanced.immortal)
        · exact .inr (.inl (balanced.clients_pos refers))
      · simp [ThreadRing.refs, pc, TlsPc.refs, List.count_cons, @eq_comm _ _ other]
      · simpa [ThreadRing.Nested, pc] using nested
  | setting previous ring =>
      refine balanced.moves (fun other => ?_) ?_
      · simp [ThreadRing.refs, pc, TlsPc.refs, Tls.refs]
      · simp only [ThreadRing.Nested, pc] at nested
        obtain ⟨linked, stands, found⟩ := nested
        exact ⟨⟨found.trans stands, linked⟩, rfl⟩
  | restoring tls =>
      refine balanced.moves (fun other => ?_) ?_
      · simp only [ThreadRing.refs, pc, TlsPc.refs]
      · simp only [ThreadRing.Nested, pc] at nested
        exact ⟨nested.1, nested.2.2, nested.2.2⟩
  | releasing tls =>
      refine balanced.gives ?_ (fun other => ?_) ?_
      · simp [ThreadRing.refs, pc, TlsPc.refs, Tls.refs]
      · simp [ThreadRing.refs, pc, TlsPc.refs, Tls.refs, List.count_cons, @eq_comm _ _ other]
      · simp only [ThreadRing.Nested, pc] at nested
        exact ⟨nested.1, nested.2.1⟩
  | dropping ring =>
      refine balanced.gives ?_ (fun other => ?_) ?_
      · simp [ThreadRing.refs, pc, TlsPc.refs]
      · simp [ThreadRing.refs, pc, TlsPc.refs, List.count_cons, @eq_comm _ ring]
      · simpa only [ThreadRing.Nested, pc] using nested

/-- The reference to the ring it made moves into the map or is dropped. -/
theorem construct (balanced : state.Balanced) (thread : Nat) (made : RingId) :
    (state.construct std thread made).Balanced := by
  have nested := balanced.nested thread
  simp only [ThreadRings.construct]
  split
  · exact balanced
  · rename_i enabled
    rw [not_or, not_or, not_not] at enabled
    obtain ⟨pc, loose, outside⟩ := enabled
    have counted := balanced.counted made
    have held : (state.engine.shared.rings made).clients ≠ 0 := by
      change (state.engine.obj made).clients ≠ 0
      omega
    split
    · rename_i absent
      have result : (state.engine.act std (.client (.addNamed made))).shared = _ :=
        Shared.apply_addNamed_absent held absent
      refine balanced.takes (balanced.sound.act std (.client (.addNamed made)))
        (client_immortal std _ _) (fun other => ?_) rfl rfl (fun other => ?_) ?_
      · have clients : ((state.engine.act std (.client (.addNamed made))).obj other).clients =
            (state.engine.obj other).clients := by
          rw [Engine.obj, result]
          exact Shared.setRing_clients (by rfl) other
        have counted := balanced.counted other
        refine clients.trans ?_
        change _ = Function.update state.loose made _ other + _ + _
        rw [Function.update_apply]
        split
        · rename_i same
          subst same
          omega
        · omega
      · simp [ThreadRing.refs, pc, TlsPc.refs, List.count_cons, @eq_comm _ _ other]
      · simpa only [ThreadRing.Nested, pc] using nested
    · rename_i existing found
      have result : (state.engine.act std (.client (.addNamed made))).shared = _ :=
        Shared.apply_addNamed_found held outside found
      have different : existing ≠ made :=
        fun same => outside (same ▸ List.mem_of_find?_eq_some found)
      refine balanced.takes (balanced.sound.act std (.client (.addNamed made)))
        (client_immortal std _ _) (fun other => ?_) rfl rfl (fun other => ?_) ?_
      · have clients : ((state.engine.act std (.client (.addNamed made))).obj other).clients =
            (state.engine.obj other).clients + (if other = existing then 1 else 0) -
              if other = made then 1 else 0 := by
          rw [Engine.obj, result, Shared.release_clients, Shared.hold_clients]
          rfl
        have counted := balanced.counted other
        refine clients.trans ?_
        change _ = Function.update state.loose made _ other + _ + _
        rw [Function.update_apply]
        by_cases same : other = made
        · subst same
          simp only [different.symm, if_true, if_false]
          omega
        · simp only [same, if_false]
          omega
      · simp [ThreadRing.refs, pc, TlsPc.refs, List.count_cons, @eq_comm _ _ other]
      · simpa only [ThreadRing.Nested, pc] using nested

theorem adopt (balanced : state.Balanced) (thread : Nat) (ring : RingId) :
    (state.adopt thread ring).Balanced := by
  have nested := balanced.nested thread
  simp only [ThreadRings.adopt]
  split
  · exact balanced
  · rename_i enabled
    rw [not_or, not_not] at enabled
    obtain ⟨pc, loose⟩ := enabled
    refine balanced.takes balanced.sound rfl (fun other => ?_) rfl rfl (fun other => ?_) ?_
    · have counted := balanced.counted other
      change (state.engine.obj other).clients = Function.update state.loose ring _ other + _ + _
      rw [Function.update_apply]
      split
      · rename_i same
        subst same
        omega
      · omega
    · simp [ThreadRing.refs, pc, TlsPc.refs, List.count_cons, @eq_comm _ _ other]
    · simpa only [ThreadRing.Nested, pc] using nested

theorem destroy (balanced : state.Balanced) (thread : Nat) :
    (state.destroy thread).Balanced := by
  have nested := balanced.nested thread
  simp only [ThreadRings.destroy]
  split
  · rename_i tls rest pc stack
    refine balanced.moves (fun other => ?_) ?_
    · simp only [ThreadRing.refs, pc, stack, TlsPc.refs, List.nil_append, List.flatMap_cons]
    · simp only [ThreadRing.Nested, pc, stack] at nested
      obtain ⟨⟨found, linked⟩, stands⟩ := nested
      exact ⟨linked, stands, found⟩
  · exact balanced

/-- A reference that nobody's `tls` has. -/
theorem loosened (balanced : state.Balanced) {op : Op} {count : Nat}
    (counted : ∀ other, ((state.client std op).engine.obj other).clients =
      Function.update state.loose ring count other + state.heldTo other) :
    ((state.client std op).loosen ring count).Balanced where
  sound := balanced.sound.act std (.client op)
  immortal := (client_immortal std _ _).trans balanced.immortal
  counted
  owned := balanced.owned
  nested := balanced.nested

theorem act (balanced : state.Balanced) (action : TlsAction) :
    (state.act std flags action).Balanced := by
  cases action with
  | engine trylock =>
      have same := (balanced.sound.tracked.shape std trylock).objs
      exact balanced.frame (balanced.sound.act std (.engine trylock))
        fun ring => ⟨(same ring).clients, (same ring).immortal⟩
  | use op =>
      simp only [ThreadRings.act]
      split
      · rename_i keeps
        exact balanced.frame (balanced.sound.act std (.client op))
          fun ring => ⟨Shared.apply_clients keeps ring, client_immortal std op ring⟩
      · exact balanced
  | hold ring => 
      simp only [ThreadRings.act]
      split
      · rename_i enabled
        refine balanced.loosened fun other => ?_
        have held : (state.engine.act std (.client (.hold ring))).shared =
          state.engine.shared.hold ring := if_pos enabled
        have counted := balanced.counted other
        change ((state.engine.act std (.client (.hold ring))).shared.rings other).clients = _
        rw [held, Shared.hold_clients, Function.update_apply]
        change (state.engine.obj other).clients + _ = _
        split
        · rename_i equal
          subst equal
          omega
        · omega
      · exact balanced
  | release ring =>
      simp only [ThreadRings.act]
      split
      · exact balanced
      · rename_i loose
        refine balanced.loosened fun other => ?_
        have own := balanced.counted ring
        have positive : (state.engine.obj ring).clients ≠ 0 := by omega
        have released : (state.engine.act std (.client (.release ring))).shared =
            state.engine.shared.release ring := if_neg positive
        have counted := balanced.counted other
        change ((state.engine.act std (.client (.release ring))).shared.rings other).clients = _
        rw [released, Shared.release_clients, Function.update_apply]
        change (state.engine.obj other).clients - _ = _
        split
        · rename_i same
          subst same
          omega
        · omega
  | construct thread made => exact balanced.construct thread made
  | adopt thread ring => exact balanced.adopt thread ring
  | destroy thread => exact balanced.destroy thread
  | step thread => exact balanced.step thread

/-- With no object anywhere and no constructor or destructor under way, no
reference is left over. -/
theorem nothing_held (balanced : state.Balanced)
    (idle : ∀ thread, (state.threads thread).refs = []) : state.held = [] := by
  refine List.eq_nil_iff_forall_not_mem.mpr fun holding member => ?_
  have positive := List.count_pos_iff.mpr member
  rw [balanced.owned holding.1 holding.2, idle] at positive
  exact Nat.lt_irrefl 0 positive

end Balanced

/-- What `create` starts from. -/
theorem create_balanced (capacity : UInt32) (tsoDisabled : Bool) (timesource : UInt64)
    {rings : RingId → RingObj} (fresh : ∀ ring, (rings ring).Fresh)
    (immortal : (rings initialRing).immortal = true) :
    (create capacity tsoDisabled timesource rings).Balanced where
  sound := Engine.create_sound capacity tsoDisabled timesource fresh
  immortal
  counted _ := rfl
  owned _ _ := rfl
  nested _ := ⟨trivial, rfl⟩

/-- Two threads share a ring, and the one that has made it leaves. -/
def sharedRun : List TlsAction :=
  [.construct 1 1, .step 1, .step 1, .construct 2 2, .step 2, .step 2, .step 2, .destroy 1,
    .step 1, .step 1, .step 1]

end ThreadRings

end Hogl.Polling
