import Hogl.Data.Runs

namespace Hogl.Output

open Hogl.Data

/-! # Waking the rotation thread

The rotation thread of `src/output-file.cc` waits on `_rotate_cond` and looks
at `_killed` and `_rotate_pending` only when it wakes up.  Three parties set
the flags: `writev`, which tries the mutex, `switch_name`, which takes it, and
the destructor, which sets its flag before it takes the mutex.
-/

/-- Where the rotation thread stands. -/
inductive RotateThread where
  /-- It has not locked `_rotate_mutex` yet. -/
  | starting
  /-- It is about to wait for the first time. -/
  | entering
  /-- It waits, and no signal has been delivered to it. -/
  | waiting
  /-- It was signalled and has to lock the mutex again. -/
  | woken
  | checking
  | rotating
  /-- It is about to wait again. -/
  | looping
  | exited
deriving Repr, DecidableEq

/-- Who holds `_rotate_mutex`, and how far a setter has come. -/
inductive Holder where
  | thread
  /-- `writev` or `switch_name`, before it sets `_rotate_pending`, -/
  | requesting
  /-- before it signals, -/
  | requested
  /-- and before it unlocks. -/
  | sent
  /-- The destructor, before it signals, -/
  | destroying
  /-- and before it unlocks. -/
  | destroyed
deriving Repr, DecidableEq

structure Rotation where
  thread : RotateThread
  mutex : Option Holder
  killed : Bool
  pending : Bool
  /-- `writev` has seen no rotation pending and is about to try the mutex. -/
  trying : Bool
  /-- A request that set `_rotate_pending` has signalled (ghost). -/
  requestSent : Bool
  /-- The destructor has signalled (ghost). -/
  killSent : Bool
deriving Repr, DecidableEq

inductive RotateAction where
  /-- The rotation thread goes on. -/
  | thread
  /-- `writev` finds the chunk too large and looks at `_rotate_pending`, -/
  | writevTest
  /-- and tries the mutex. -/
  | writevTrylock
  /-- `switch_name` locks the mutex. -/
  | switchName
  /-- The destructor sets `_killed`, -/
  | kill
  /-- and locks the mutex. -/
  | destroy
  /-- The setter that holds the mutex goes on. -/
  | setter
deriving Repr, DecidableEq

/-- `pthread_cond_signal`. -/
def RotateThread.signal : RotateThread → RotateThread
  | .waiting => .woken
  | thread => thread

namespace Rotation

variable (state : Rotation)

def lock (holder : Holder) : Rotation :=
  if state.mutex = none then { state with mutex := some holder } else state

/-- `thread_loop`. -/
def threadLoop : Rotation :=
  match state.thread with
  | .starting =>
      if state.mutex = none then { state with thread := .entering, mutex := some .thread } else state
  | .entering | .looping => { state with thread := .waiting, mutex := none }
  | .waiting | .exited => state
  | .woken =>
      if state.mutex = none then { state with thread := .checking, mutex := some .thread } else state
  | .checking =>
      if state.killed then { state with thread := .exited, mutex := none }
      else { state with thread := if state.pending then .rotating else .looping }
  | .rotating => { state with thread := .looping, pending := false, requestSent := false }

def setterStep : Rotation :=
  match state.mutex with
  | some .requesting => { state with mutex := some .requested, pending := true }
  | some .requested =>
      { state with mutex := some .sent, requestSent := true, thread := state.thread.signal }
  | some .destroying =>
      { state with mutex := some .destroyed, killSent := true, thread := state.thread.signal }
  | some .sent | some .destroyed => { state with mutex := none }
  | some .thread | none => state

def act : RotateAction → Rotation
  | .thread => state.threadLoop
  | .writevTest => { state with trying := !state.pending }
  | .writevTrylock =>
      if state.trying then { state.lock .requesting with trying := false } else state
  | .switchName => state.lock .requesting
  | .kill => { state with killed := true }
  | .destroy => if state.killed && !state.killSent then state.lock .destroying else state
  | .setter => state.setterStep

/-- The constructor has created the thread. -/
def start : Rotation where
  thread := .starting
  mutex := none
  killed := false
  pending := false
  trying := false
  requestSent := false
  killSent := false

def after (actions : List RotateAction) : Rotation := runs act start actions

/-- The thread sleeps on a request or on the end of the object, with the
signal for it already sent. -/
def Lost : Prop :=
  state.thread = .waiting ∧
    (state.pending = true ∧ state.requestSent = true ∨ state.killed = true ∧ state.killSent = true)

/-- The thread starts its first wait with the signal for it already sent. -/
def EntersLate (action : RotateAction) : Prop :=
  action = .thread ∧ state.thread = .entering ∧
    (state.pending = true ∧ state.requestSent = true ∨ state.killed = true ∧ state.killSent = true)

/-- What the flags say once the thread has been through its loop. -/
structure Known (state : Rotation) : Prop where
  locked : state.mutex = some .thread ↔ state.thread = .entering ∨ state.thread = .checking ∨
    state.thread = .rotating ∨ state.thread = .looping
  request : state.requestSent = true → state.pending = true
  kill : state.killSent = true → state.killed = true
  setting : state.mutex = some .requested → state.pending = true
  destroying : state.mutex = some .destroying → state.killed = true
  rotating : state.thread = .rotating → state.killSent = false
  looping : state.thread = .looping → state.requestSent = false ∧ state.killSent = false

variable {state}

/-- The thread is in its loop, with the mutex locked. -/
def Inside (thread : RotateThread) : Prop :=
  thread = .entering ∨ thread = .checking ∨ thread = .rotating ∨ thread = .looping

/-- A signal moves a thread that waits, and no other. -/
theorem inside_signal {thread : RotateThread} : Inside thread.signal ↔ Inside thread := by
  cases thread with
  | waiting => simp [Inside, RotateThread.signal]
  | _ => rfl

namespace Known

theorem lock (known : state.Known) {holder : Holder} (setter : holder ≠ .thread)
    (fresh : holder ≠ .requested) (killed : holder = .destroying → state.killed = true) :
    (state.lock holder).Known := by
  simp only [Rotation.lock]
  split
  · rename_i free
    have unlocked := known.locked
    rw [free] at unlocked
    refine { known with locked := ?_, setting := ?_, destroying := ?_ }
    · exact ⟨fun same => absurd (Option.some.inj same) setter, fun inside => by
        cases unlocked.mpr inside⟩
    · exact fun same => absurd (Option.some.inj same) fresh
    · exact fun same => killed (Option.some.inj same)
  · exact known

theorem threadLoop (known : state.Known) : state.threadLoop.Known := by
  cases place : state.thread with
  | waiting | exited =>
      simp only [Rotation.threadLoop, place]
      exact known
  | starting =>
      simp only [Rotation.threadLoop, place]
      split
      · exact { known with
          locked := iff_of_true rfl (.inl rfl), setting := nofun, destroying := nofun
          rotating := nofun, looping := nofun }
      · exact known
  | woken =>
      simp only [Rotation.threadLoop, place]
      split
      · exact { known with
          locked := iff_of_true rfl (.inr (.inl rfl)), setting := nofun, destroying := nofun
          rotating := nofun, looping := nofun }
      · exact known
  | entering | looping =>
      simp only [Rotation.threadLoop, place]
      exact { known with
        locked := by simp, setting := nofun, destroying := nofun
        rotating := nofun, looping := nofun }
  | checking =>
      have held := known.locked.mpr (.inr (.inl place))
      simp only [Rotation.threadLoop, place]
      split
      · exact { known with
          locked := by simp, setting := nofun, destroying := nofun
          rotating := nofun, looping := nofun }
      · rename_i alive
        have unsent : state.killSent = false :=
          Bool.eq_false_iff.mpr fun sent => alive (known.kill sent)
        cases asked : state.pending with
        | true => exact { known with
            locked := iff_of_true held (.inr (.inr (.inl rfl))), request := fun _ => rfl
            setting := fun _ => rfl, rotating := fun _ => unsent, looping := nofun }
        | false =>
            have request : state.requestSent = false := Bool.eq_false_iff.mpr fun sent => by
              cases asked.symm.trans (known.request sent)
            exact { known with
              locked := iff_of_true held (.inr (.inr (.inr rfl)))
              request := fun sent => absurd sent (by rw [request]; decide)
              setting := fun other => by cases held.symm.trans other
              rotating := nofun, looping := fun _ => ⟨request, unsent⟩ }
  | rotating =>
      have held := known.locked.mpr (.inr (.inr (.inl place)))
      simp only [Rotation.threadLoop, place]
      exact { known with
        locked := iff_of_true held (.inr (.inr (.inr rfl))), request := nofun
        setting := fun other => by cases held.symm.trans other
        rotating := nofun, looping := fun _ => ⟨rfl, known.rotating place⟩ }

/-- While a setter holds the mutex the thread is outside of its loop. -/
theorem outside (known : state.Known) {holder : Holder} (held : state.mutex = some holder)
    (setter : holder ≠ .thread) : ¬ Inside state.thread :=
  fun inside => setter (Option.some.inj (held.symm.trans (known.locked.mpr inside)))

theorem setterStep (known : state.Known) : state.setterStep.Known := by
  cases held : state.mutex with
  | none =>
      simp only [Rotation.setterStep, held]
      exact known
  | some holder =>
      cases holder with
      | thread =>
          simp only [Rotation.setterStep, held]
          exact known
      | requesting =>
          simp only [Rotation.setterStep, held]
          exact { known with
            locked := iff_of_false nofun (known.outside held (by decide)), request := fun _ => rfl
            setting := fun _ => rfl, destroying := nofun }
      | requested =>
          have outside : ¬ Inside state.thread.signal :=
            mt inside_signal.mp (known.outside held (by decide))
          simp only [Rotation.setterStep, held]
          exact { known with
            locked := iff_of_false nofun outside, request := fun _ => known.setting held
            setting := nofun, destroying := nofun
            rotating := fun inside => absurd (.inr (.inr (.inl inside))) outside
            looping := fun inside => absurd (.inr (.inr (.inr inside))) outside }
      | destroying =>
          have outside : ¬ Inside state.thread.signal :=
            mt inside_signal.mp (known.outside held (by decide))
          simp only [Rotation.setterStep, held]
          exact { known with
            locked := iff_of_false nofun outside, kill := fun _ => known.destroying held
            setting := nofun, destroying := nofun
            rotating := fun inside => absurd (.inr (.inr (.inl inside))) outside
            looping := fun inside => absurd (.inr (.inr (.inr inside))) outside }
      | sent | destroyed =>
          simp only [Rotation.setterStep, held]
          exact { known with
            locked := iff_of_false nofun (known.outside held (by decide))
            setting := nofun, destroying := nofun }

theorem step (known : state.Known) (action : RotateAction) : (state.act action).Known := by
  cases action with
  | thread => exact known.threadLoop
  | writevTest => exact { known with }
  | writevTrylock =>
      simp only [act]
      split
      · exact { known.lock (by decide) (by decide) (fun same => by cases same) with }
      · exact known
  | switchName => exact known.lock (by decide) (by decide) fun same => by cases same
  | kill => exact { known with kill := fun _ => rfl, destroying := fun _ => rfl }
  | destroy =>
      simp only [act]
      split
      · rename_i killed
        rw [Bool.and_eq_true] at killed
        exact known.lock (by decide) (by decide) fun _ => killed.1
      · exact known
  | setter => exact known.setterStep

end Known

theorem start_known (actions : List RotateAction) : (after actions).Known := by
  refine runs_invariant ?_ (fun _ action known => known.step action) actions
  constructor <;> simp [start]

theorem signal_ne_waiting (thread : RotateThread) : thread.signal ≠ .waiting := by
  cases thread <;> simp [RotateThread.signal]

/-- Only the flags and the place of the thread matter. -/
theorem Lost.of_same {next : Rotation} (known : state.Known) (lost : next.Lost)
    (thread : next.thread = state.thread) (requestSent : next.requestSent = state.requestSent)
    (killSent : next.killSent = state.killSent) : state.Lost := by
  refine ⟨thread ▸ lost.1, ?_⟩
  rcases lost.2 with ⟨-, sent⟩ | ⟨-, sent⟩
  · rw [requestSent] at sent
    exact .inl ⟨known.request sent, sent⟩
  · rw [killSent] at sent
    exact .inr ⟨known.kill sent, sent⟩

theorem lost_threadLoop (known : state.Known) (lost : state.threadLoop.Lost) :
    state.Lost ∨ state.EntersLate .thread := by
  cases place : state.thread with
  | starting | woken =>
      simp only [threadLoop, place] at lost
      split at lost
      · cases lost.1
      · exact .inl lost
  | entering =>
      simp only [threadLoop, place] at lost
      exact .inr ⟨rfl, place, lost.2⟩
  | waiting | exited =>
      simp only [threadLoop, place] at lost
      exact .inl lost
  | checking =>
      simp only [threadLoop, place] at lost
      split at lost
      · cases lost.1
      · have waiting := lost.1
        dsimp only at waiting
        split at waiting <;> cases waiting
  | rotating =>
      simp only [threadLoop, place] at lost
      cases lost.1
  | looping =>
      -- Behind its loop the thread has seen all that was signalled.
      obtain ⟨request, kill⟩ := known.looping place
      simp only [threadLoop, place] at lost
      rcases lost.2 with ⟨-, sent⟩ | ⟨-, sent⟩
      · cases request.symm.trans sent
      · cases kill.symm.trans sent

theorem lost_setterStep (known : state.Known) (lost : state.setterStep.Lost) : state.Lost := by
  cases held : state.mutex with
  | none =>
      simp only [setterStep, held] at lost
      exact lost
  | some holder =>
      cases holder with
      | thread | requesting | sent | destroyed =>
          simp only [setterStep, held] at lost
          exact lost.of_same known rfl rfl rfl
      | requested | destroying =>
          simp only [setterStep, held] at lost
          exact absurd lost.1 (signal_ne_waiting state.thread)

theorem lost_lock {holder : Holder} (known : state.Known) (lost : (state.lock holder).Lost) :
    state.Lost := by
  simp only [lock] at lost
  split at lost
  · exact lost.of_same known rfl rfl rfl
  · exact lost

theorem lost_step (known : state.Known) (action : RotateAction) (lost : (state.act action).Lost) :
    state.Lost ∨ state.EntersLate action := by
  cases action with
  | thread => exact lost_threadLoop known lost
  | writevTest | kill => exact .inl (lost.of_same known rfl rfl rfl)
  | writevTrylock =>
      simp only [act] at lost
      split at lost
      · exact .inl (lost_lock known (lost.of_same (known.lock (by decide) (by decide)
          fun same => by cases same) rfl rfl rfl))
      · exact .inl lost
  | switchName => exact .inl (lost_lock known lost)
  | destroy =>
      simp only [act] at lost
      split at lost
      · exact .inl (lost_lock known lost)
      · exact .inl lost
  | setter => exact .inl (lost_setterStep known lost)

theorem lost_of_entersLate (action : RotateAction) (late : state.EntersLate action) :
    (state.act action).Lost := by
  obtain ⟨rfl, place, sent⟩ := late
  simp only [act, threadLoop, place]
  exact ⟨rfl, sent⟩

/-- In a run no signal is lost if and only if the thread has started its first
wait before anybody signals. -/
theorem no_request_lost_iff (actions : List RotateAction) :
    (∀ earlier, earlier <+: actions → ¬ (after earlier).Lost) ↔
    AtEach (fun earlier action => ¬ (after earlier).EntersLate action) actions := by
  refine @runs_safe_iff _ _ act Known (fun state => ¬ state.Lost) EntersLate start start_known
    ?_ ?_ ?_ actions
  · intro ⟨waiting, _⟩
    cases waiting
  · exact fun state action known safe onTime lost => (lost_step known action lost).elim safe onTime
  · exact fun state action _ late safe => safe (lost_of_entersLate action late)

/-- The object is destroyed before its thread gets going. -/
theorem early_destructor_waits_forever : ¬ ∀ actions, ¬ (after actions).Lost := by
  intro safe
  exact safe [.kill, .destroy, .setter, .setter, .thread, .thread] ⟨rfl, .inr ⟨rfl, rfl⟩⟩

end Rotation

end Hogl.Output
