import Hogl.Engine.Shapes

namespace Hogl.Polling

open Hogl.Data Hogl.Ring

/-! # Who owns a ring

`add_ring(name)` finds or inserts a ring and takes a reference under the
mutex, and decides behind the mutex whether the ring it found may be reused.
The engine tests for orphans outside the mutex and erases them inside.
-/

/-- The flags of a ring that `add_ring` looks at. -/
structure RingFlags where
  shared : Bool
  reusable : Bool
deriving Repr, DecidableEq

/-- A client and the ring it has a reference to. -/
abbrev Holding := Nat × RingId

structure Ownership where
  engine : Engine
  /-- The `add_ring` calls that found a ring and have yet to decide. -/
  deciding : List Holding
  /-- What `add_ring` has returned and the client has not released. -/
  given : List Holding
  /-- What `find_ring` has returned and the client has not released. -/
  found : List Holding

inductive OwnerAction where
  | engine (trylock : Bool)
  /-- A client step that neither takes nor drops a reference. -/
  | use (op : Op)
  /-- The critical section of `add_ring(name)`, with the ring it has made. -/
  | add (client : Nat) (ring : RingId)
  /-- Its decision about the ring it found. -/
  | decide (client : Nat) (ring : RingId)
  | find (client : Nat) (ring : RingId)
  | release (client : Nat) (ring : RingId)
deriving Repr, DecidableEq

/-- The operations that leave the references of clients alone. -/
def Op.keepsReferences : Op → Bool
  | .addNamed _ | .hold _ | .release _ => false
  | _ => true

namespace Ownership

variable (std : StdSort) (flags : RingId → RingFlags)

/-- The rings of all references that these clients hold. -/
def holdings (state : Ownership) : List RingId :=
  (state.deciding ++ state.given ++ state.found).map Prod.snd

def addRing (state : Ownership) (client : Nat) (ring : RingId) : Ownership :=
  let obj := state.engine.obj ring
  if obj.clients = 0 ∨ ring ∈ state.engine.shared.ringMap ∨ ring ∈ state.holdings then state
  else
    let engine := state.engine.act std (.client (.addNamed ring))
    match state.engine.shared.findRing obj.name with
    | none => { state with engine, given := (client, ring) :: state.given }
    | some existing => { state with engine, deciding := (client, existing) :: state.deciding }

/-- Whether `add_ring` returns a ring it found. -/
def reuses (state : Ownership) (ring : RingId) : Bool :=
  (flags ring).shared || (flags ring).reusable && (state.engine.obj ring).refcnt == 2

def decideReuse (state : Ownership) (client : Nat) (ring : RingId) : Ownership :=
  if (client, ring) ∈ state.deciding then
    let decided := { state with deciding := state.deciding.erase (client, ring) }
    if state.reuses flags ring then { decided with given := (client, ring) :: state.given }
    else { decided with engine := state.engine.act std (.client (.release ring)) }
  else state

def findRing (state : Ownership) (client : Nat) (ring : RingId) : Ownership :=
  if ring ∈ state.engine.shared.ringMap then
    { state with
      engine := state.engine.act std (.client (.hold ring))
      found := (client, ring) :: state.found }
  else state

def releaseRing (state : Ownership) (client : Nat) (ring : RingId) : Ownership :=
  let engine := state.engine.act std (.client (.release ring))
  if (client, ring) ∈ state.given then
    { state with engine, given := state.given.erase (client, ring) }
  else if (client, ring) ∈ state.found then
    { state with engine, found := state.found.erase (client, ring) }
  else state

def act (state : Ownership) : OwnerAction → Ownership
  | .engine trylock => { state with engine := state.engine.act std (.engine trylock) }
  | .use op =>
      if op.keepsReferences then { state with engine := state.engine.act std (.client op) }
      else state
  | .add client ring => state.addRing std client ring
  | .decide client ring => state.decideReuse std flags client ring
  | .find client ring => state.findRing std client ring
  | .release client ring => state.releaseRing std client ring

def create (capacity : UInt32) (tsoDisabled : Bool) (timesource : UInt64)
    (rings : RingId → RingObj) : Ownership where
  engine := .create capacity tsoDisabled timesource rings
  deciding := []
  given := []
  found := []

def after (start : Ownership) (actions : List OwnerAction) : Ownership :=
  runs (act std flags) start actions

/-- A ring that `add_ring` has returned is registered, and a ring that is not
shared has been returned to one client only. -/
structure Owned (state : Ownership) : Prop where
  registered : ∀ holding ∈ state.given, holding.2 ∈ state.engine.shared.ringMap
  exclusive : ∀ ring, (flags ring).shared = false →
    (state.given.map Prod.snd).count ring ≤ 1

/-- `kill_orphan` is about to erase a ring that somebody has taken a reference
to since the engine found it an orphan. -/
def killsHeld (state : Ownership) : OwnerAction → Bool
  | .engine true =>
      match state.engine.pc with
      | .kill i => (state.engine.ringAt i).any fun ring => (state.engine.obj ring).refcnt != 1
      | _ => false
  | _ => false

end Ownership

namespace Shared

variable {shared : Shared}

theorem setRing_clients {target : RingId} {obj : RingObj}
    (same : obj.clients = (shared.rings target).clients) (ring : RingId) :
    ((shared.setRing target obj).rings ring).clients = (shared.rings ring).clients := by
  rw [setRing_rings]
  split
  · rename_i equal
    rw [equal, same]
  · rfl

theorem pushCommit_clients (target : RingId) (next : Writer) (ring : RingId) :
    ((shared.pushCommit target next).rings ring).clients = (shared.rings ring).clients := by
  rcases shared.pushCommit_cases target next with same | ⟨-, same⟩ | ⟨-, same⟩ <;> rw [same]
  · exact setRing_clients (by rfl) ring
  · exact setRing_clients (by rfl) ring

theorem leave_clients (target : RingId) (event : Event) (ring : RingId) :
    ((shared.leave target event).rings ring).clients = (shared.rings ring).clients := by
  simp only [leave]
  split
  · split
    · rfl
    · exact setRing_clients (by rfl) ring
  · rfl

theorem apply_clients {op : Op} (keeps : op.keepsReferences = true) (ring : RingId) :
    ((shared.apply op).rings ring).clients = (shared.rings ring).clients := by
  cases op with
  | addNamed | hold | release => cases keeps
  | markDirty target =>
      simp only [apply]
      split <;> rfl
  | addRing target =>
      simp only [apply]
      split
      · rfl
      · split
        · exact setRing_clients (by rfl) ring
        · rfl
  | begin target record | reserve target =>
      simp only [apply]
      split
      · rfl
      · exact setRing_clients (by rfl) ring
  | finish target | publish target =>
      simp only [apply]
      split
      · rfl
      · exact pushCommit_clients target _ ring
  | giveUp target | arm target timestamp type arg1 arg2 | observe target =>
      simp only [apply]
      split
      · split
        · rfl
        · exact setRing_clients (by rfl) ring
      · rfl
  | abandon target | skipWait target => exact leave_clients target _ ring
  | mask dropmark tsofullmark => rfl

theorem hold_clients (target ring : RingId) : ((shared.hold target).rings ring).clients =
    (shared.rings ring).clients + if ring = target then 1 else 0 := by
  change ((shared.setRing target _).rings ring).clients = _
  rw [setRing_rings]
  split
  · rename_i equal
    rw [equal]
  · rfl

theorem release_clients (target ring : RingId) : ((shared.release target).rings ring).clients =
    (shared.rings ring).clients - if ring = target then 1 else 0 := by
  change ((shared.setRing target _).rings ring).clients = _
  rw [setRing_rings]
  split
  · rename_i equal
    rw [equal]
  · rfl

end Shared

namespace Engine

variable {engine : Engine}

/-- Only `kill_orphan` takes a ring out of the map. -/
theorem EngineStep.ringMap {std : StdSort} {next : Engine} (sound : engine.Sound)
    (step : engine.EngineStep std next) {ring : RingId} (member : ring ∈ engine.shared.ringMap) :
    ring ∈ next.shared.ringMap ∨ ∃ i, engine.pc = .kill i ∧ engine.ringAt i = some ring := by
  cases step with
  | polled | rebuilt | reset | pushed | orphaned | unlocked | skipped | exhausted | flushing
  | walked | passedOver | emptied | untouched | settled | finished | drainCommitted | committed
  | released => exact .inl member
  | @filled i tsoTs entry owner passed limit =>
      have kept := (Kept.flushFullTso std i (engine.entryFor i tsoTs owner passed).timestamp :
        Kept (engine.pushRecord i entry (engine.beyond entry owner passed)
          (engine.entryFor i tsoTs owner passed)) _)
      exact .inl (kept.ringMap ▸ member)
  | @popped left caller te rest _ owner _ _ found valid _ =>
      have handed := @flushEntry_handed (engine.popTo left caller rest) te _ owner found valid
      exact .inl (handed.ringMap ▸ member)
  | @returned _ caller => cases caller <;> exact .inl member
  | @drained i entry owner passed =>
      have handed := flushRecord_handed
        (engine.setEntry i { entry with pit := engine.beyond entry owner passed }) owner
        (slotOf (engine.obj owner).ring.capacity passed)
      exact .inl (handed.ringMap ▸ member)
  | @reaped i entry owner place found valid =>
      have at' : engine.ringAt i = some owner := ringAt_eq_some.mpr ⟨entry, found, valid⟩
      by_cases same : ring = owner
      · exact .inr ⟨i, place, same ▸ at'⟩
      · rw [killOrphan_eq found valid]
        refine .inl (List.mem_filter.mpr ⟨member, decide_eq_true fun names => same ?_⟩)
        exact sound.registered.keyed.names ring member owner
          (sound.registered.mapped i owner at') names

end Engine

namespace Ownership

variable {std : StdSort} {flags : RingId → RingFlags} {state : Ownership}

theorem count_holdings (state : Ownership) (ring : RingId) : state.holdings.count ring =
    (state.deciding.map Prod.snd).count ring + (state.given.map Prod.snd).count ring +
      (state.found.map Prod.snd).count ring := by
  simp only [holdings, List.map_append, List.count_append]

theorem count_erase {holding : Holding} {list : List Holding} (member : holding ∈ list)
    (ring : RingId) : (list.map Prod.snd).count ring =
      ((list.erase holding).map Prod.snd).count ring + if ring = holding.2 then 1 else 0 := by
  have perm := (List.perm_cons_erase member).map Prod.snd
  rw [perm.count_eq ring, List.map_cons, List.count_cons]
  simp only [beq_iff_eq, @eq_comm _ ring]

theorem count_cons (holding : Holding) (list : List Holding) (ring : RingId) :
    ((holding :: list).map Prod.snd).count ring =
      (list.map Prod.snd).count ring + if ring = holding.2 then 1 else 0 := by
  rw [List.map_cons, List.count_cons]
  simp only [beq_iff_eq, @eq_comm _ ring]

variable (flags) in
/-- The references of the clients are counted, and they are on registered
rings. -/
structure Held (state : Ownership) : Prop where
  sound : state.engine.Sound
  counted : ∀ ring, state.holdings.count ring ≤ (state.engine.obj ring).clients
  mapped : ∀ ring, 0 < state.holdings.count ring → ring ∈ state.engine.shared.ringMap
  exclusive : ∀ ring, (flags ring).shared = false → (state.given.map Prod.snd).count ring ≤ 1

namespace Held

/-- A step of the engine or of a client that moves no reference. -/
theorem frame {engine : Engine} (held : state.Held flags) (sound : engine.Sound)
    (clients : ∀ ring, (engine.obj ring).clients = (state.engine.obj ring).clients)
    (ringMap : ∀ ring, 0 < state.holdings.count ring → ring ∈ engine.shared.ringMap) :
    Held flags { state with engine } :=
  ⟨sound, fun ring => (held.counted ring).trans_eq (clients ring).symm, ringMap, held.exclusive⟩

theorem engineStep (held : state.Held flags) (trylock : Bool)
    (onTime : state.killsHeld (.engine trylock) = false) :
    (state.act std flags (.engine trylock)).Held flags := by
  have shape := held.sound.tracked.shape std trylock
  refine held.frame (held.sound.act std (.engine trylock)) (fun ring => (shape.objs ring).clients) ?_
  intro ring positive
  have mapped := held.mapped ring positive
  rcases shape.ringMap held.sound mapped with kept | ⟨i, place, at'⟩
  · exact kept
  · cases trylock with
    | false =>
        simp only [Engine.act, Engine.step, place, Engine.killOrphan, Bool.false_eq_true, if_false]
        exact mapped
    | true =>
        -- An orphan has no client, so nobody of ours can hold the ring.
        have alone : (state.engine.obj ring).refcnt = 1 := by
          simpa [killsHeld, place, at'] using onTime
        have refs := held.sound.registered.refs ring
        rw [alone, place, Shared.owned, if_pos mapped] at refs
        have counted := held.counted ring
        change 1 = _ + 1 + 0 at refs
        omega

theorem use (held : state.Held flags) (op : Op) : (state.act std flags (.use op)).Held flags := by
  simp only [act]
  split
  · rename_i keeps
    refine held.frame (held.sound.act std (.client op)) (Shared.apply_clients keeps) ?_
    exact fun ring positive =>
      (state.engine.shared.apply_step op).registered_kept (held.mapped ring positive)
  · exact held

theorem add (held : state.Held flags) (client : Nat) (ring : RingId) :
    (state.act std flags (.add client ring)).Held flags := by
  simp only [act, addRing]
  split
  · exact held
  · rename_i enabled
    rw [not_or, not_or] at enabled
    obtain ⟨made, outside, unheld⟩ := enabled
    have free : state.holdings.count ring = 0 := List.count_eq_zero_of_not_mem unheld
    have sound := held.sound.act std (.client (.addNamed ring))
    have step : Shared.ClientStep state.engine.shared
        (state.engine.act std (.client (.addNamed ring))).shared :=
      state.engine.shared.apply_step (.addNamed ring)
    split
    · rename_i absent
      have result : (state.engine.act std (.client (.addNamed ring))).shared = _ :=
        Shared.apply_addNamed_absent made absent
      have clients (other : RingId) :
          ((state.engine.act std (.client (.addNamed ring))).obj other).clients =
            (state.engine.obj other).clients := by
        rw [Engine.obj, result]
        exact Shared.setRing_clients (by rfl) other
      refine ⟨sound, fun other => ?_, fun other positive => ?_, fun other alone => ?_⟩
      · have counted := held.counted other
        rw [count_holdings] at counted free
        rw [count_holdings, count_cons, clients]
        by_cases same : other = ring
        · subst same
          have positive := Nat.pos_of_ne_zero made
          simp only [if_true]
          omega
        · simp only [same, if_false]
          omega
      · by_cases same : other = ring
        · subst same
          rw [result]
          exact (Shared.insertKey_perm other _).mem_iff.mpr List.mem_cons_self
        · apply step.registered_kept
          apply held.mapped other
          rw [count_holdings] at positive ⊢
          rw [count_cons, if_neg same] at positive
          exact positive
      · rw [count_cons]
        have exclusive := held.exclusive other alone
        split
        · rename_i same
          obtain rfl : other = ring := same
          rw [count_holdings] at free
          omega
        · exact exclusive
    · rename_i existing found
      have result : (state.engine.act std (.client (.addNamed ring))).shared = _ :=
        Shared.apply_addNamed_found made outside found
      have member : existing ∈ state.engine.shared.ringMap := List.mem_of_find?_eq_some found
      refine ⟨sound, fun other => ?_, fun other positive => ?_, held.exclusive⟩
      · have counted := held.counted other
        have clients : ((state.engine.act std (.client (.addNamed ring))).obj other).clients =
            (state.engine.obj other).clients + (if other = existing then 1 else 0) -
              if other = ring then 1 else 0 := by
          rw [Engine.obj, result, Shared.release_clients, Shared.hold_clients]
          rfl
        rw [count_holdings] at counted free
        rw [count_holdings, count_cons, clients]
        by_cases same : other = ring
        · have different : other ≠ existing := fun equal => outside (same ▸ equal ▸ member)
          rw [same] at different ⊢
          simp only [different, if_false]
          omega
        · simp only [same, if_false]
          omega
      · apply step.registered_kept
        by_cases same : other = existing
        · exact same ▸ member
        · apply held.mapped other
          rw [count_holdings] at positive ⊢
          rw [count_cons, if_neg same] at positive
          exact positive

/-- A reference that is given up is one that was counted. -/
theorem dropped (std : StdSort) {after : Ownership} {ring : RingId} (held : state.Held flags)
    (engine : after.engine = state.engine.act std (.client (.release ring)))
    (count : ∀ other, state.holdings.count other =
      after.holdings.count other + if other = ring then 1 else 0)
    (given : ∀ other, (after.given.map Prod.snd).count other ≤
      (state.given.map Prod.snd).count other) : after.Held flags := by
  have own := count ring
  rw [if_pos rfl] at own
  have covered : (state.engine.obj ring).clients ≠ 0 := by
    have counted := held.counted ring
    omega
  have released : after.engine.shared = state.engine.shared.release ring := by
    rw [engine]
    exact if_neg covered
  refine ⟨engine ▸ held.sound.act std _, fun other => ?_, fun other positive => ?_,
    fun other alone => (given other).trans (held.exclusive other alone)⟩
  · have counted := held.counted other
    have total := count other
    rw [Engine.obj, released, Shared.release_clients]
    change _ ≤ (state.engine.obj other).clients - _
    omega
  · rw [released]
    apply held.mapped other
    have total := count other
    omega

/-- Where the ring it found is registered, a call that sees two references
sees the engine's and its own. -/
theorem reused (held : state.Held flags) {client : Nat} {ring : RingId}
    (member : (client, ring) ∈ state.deciding) (reuses : state.reuses flags ring = true)
    (unshared : (flags ring).shared = false) : (state.given.map Prod.snd).count ring = 0 := by
  have two : (state.engine.obj ring).refcnt = 2 := by
    simp only [Ownership.reuses, unshared, Bool.false_or, Bool.and_eq_true, beq_iff_eq] at reuses
    exact reuses.2
  have own := count_erase member ring
  rw [if_pos rfl] at own
  have counted := held.counted ring
  have total := count_holdings state ring
  have mapped := held.mapped ring (by omega)
  have refs := held.sound.registered.refs ring
  rw [Shared.owned, if_pos mapped] at refs
  omega

theorem decide (held : state.Held flags) (client : Nat) (ring : RingId) :
    (state.act std flags (.decide client ring)).Held flags := by
  simp only [act, decideReuse]
  split
  · rename_i member
    have erased := count_erase member
    split
    · rename_i reuses
      have total (other : RingId) : (Ownership.holdings { state with
          deciding := state.deciding.erase (client, ring)
          given := (client, ring) :: state.given }).count other = state.holdings.count other := by
        rw [count_holdings, count_holdings, count_cons, erased other]
        dsimp only
        omega
      refine ⟨held.sound, fun other => (total other).trans_le (held.counted other),
        fun other positive => held.mapped other (total other ▸ positive), ?_⟩
      intro other unshared
      rw [count_cons]
      split
      · rename_i same
        obtain rfl : other = ring := same
        exact (congrArg (· + 1) (held.reused member reuses unshared)).le
      · exact held.exclusive other unshared
    · refine held.dropped std rfl (fun other => ?_) fun other => Nat.le_refl _
      rw [count_holdings, count_holdings, erased other]
      dsimp only
      omega
  · exact held

theorem find (held : state.Held flags) (client : Nat) (ring : RingId) :
    (state.act std flags (.find client ring)).Held flags := by
  simp only [act, Ownership.findRing]
  split
  · rename_i member
    have result : (state.engine.act std (.client (.hold ring))).shared =
        state.engine.shared.hold ring := if_pos (.inl member)
    refine ⟨held.sound.act std (.client (.hold ring)), fun other => ?_, fun other positive => ?_,
      held.exclusive⟩
    · have counted := held.counted other
      rw [count_holdings] at counted ⊢
      rw [count_cons, Engine.obj, result, Shared.hold_clients]
      change _ ≤ (state.engine.obj other).clients + _
      dsimp only
      omega
    · rw [result]
      by_cases same : other = ring
      · exact same ▸ member
      · apply held.mapped other
        rw [count_holdings] at positive ⊢
        rw [count_cons, if_neg same] at positive
        exact positive
  · exact held

theorem release (held : state.Held flags) (client : Nat) (ring : RingId) :
    (state.act std flags (.release client ring)).Held flags := by
  simp only [act, releaseRing]
  split
  · rename_i member
    have erased := count_erase member
    refine held.dropped std rfl (fun other => ?_) fun other => ?_
    · rw [count_holdings, count_holdings, erased other]
      dsimp only
      omega
    · rw [erased other]
      exact Nat.le_add_right _ _
  · split
    · rename_i member
      refine held.dropped std rfl (fun other => ?_) fun other => Nat.le_refl _
      rw [count_holdings, count_holdings, count_erase member other]
      dsimp only
      omega
    · exact held

theorem step (held : state.Held flags) (action : OwnerAction) (onTime : state.killsHeld action = false) :
    (state.act std flags action).Held flags := by
  cases action with
  | engine trylock => exact held.engineStep trylock onTime
  | use op => exact held.use op
  | add client ring => exact held.add client ring
  | decide client ring => exact held.decide client ring
  | find client ring => exact held.find client ring
  | release client ring => exact held.release client ring

theorem owned (held : state.Held flags) : state.Owned flags := by
  refine ⟨?_, held.exclusive⟩
  intro holding member
  apply held.mapped
  rw [count_holdings]
  have positive := List.count_pos_iff.mpr (List.mem_map_of_mem (f := Prod.snd) member)
  omega

end Held

/-- As long as `kill_orphan` erases a ring only while it is still an orphan,
what `add_ring` returns stays registered and belongs to one client. -/
theorem add_ring_owned (std : StdSort) (flags : RingId → RingFlags) (capacity : UInt32)
    (tsoDisabled : Bool) (timesource : UInt64) (rings : RingId → RingObj)
    (fresh : ∀ ring, (rings ring).Fresh) (actions : List OwnerAction)
    (onTime : AtEach (fun earlier action => ¬ ((create capacity tsoDisabled timesource rings).after
      std flags earlier).killsHeld action) actions) :
    ((create capacity tsoDisabled timesource rings).after std flags actions).Owned flags := by
  have kept (state : Ownership) (action : OwnerAction) (held : state.Held flags)
      (onTime : ¬ state.killsHeld action) : (state.act std flags action).Held flags :=
    held.step action (Bool.eq_false_of_not_eq_true onTime)
  refine Held.owned (runs_invariant_unless ?_ kept actions onTime)
  refine ⟨Engine.create_sound capacity tsoDisabled timesource fresh, fun ring => ?_,
    fun ring positive => ?_, fun ring _ => ?_⟩
  · exact Nat.zero_le _
  · cases positive
  · exact Nat.zero_le _

/-- A client registers a ring and leaves; the engine finds an orphan; two other
clients come. -/
def reuseRun : List OwnerAction :=
  [.add 0 0, .use (.markDirty 0), .release 0 0] ++ List.replicate 6 (.engine true) ++
    [.add 1 1, .decide 1 0]

theorem add_ring_owned_without_kill :
    let state := (create 4 false 0 fun _ => .made 3 false (ascii "ring")).after .insertion
      (fun _ => ⟨false, true⟩) reuseRun
    state.given = [(1, 0)] ∧ state.Owned fun _ => ⟨false, true⟩ := by
  intro state
  refine ⟨by decide +kernel, ?_⟩
  refine add_ring_owned .insertion _ 4 false 0 _ (fun _ => RingObj.made_fresh ⟨2, rfl⟩ _ _) _ ?_
  decide +kernel

theorem reused_ring_erased :
    ¬ ∀ actions, ((create 4 false 0 fun _ => .made 3 false (ascii "ring")).after .insertion
      (fun _ => ⟨false, true⟩) actions).Owned fun _ => ⟨false, true⟩ := by
  intro owned
  have mapped := (owned (reuseRun ++ [.engine true])).registered (1, 0) (by decide +kernel)
  revert mapped
  decide +kernel

end Ownership

end Hogl.Polling
