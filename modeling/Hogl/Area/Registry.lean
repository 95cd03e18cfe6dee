import Hogl.Area.Mask
import Hogl.Data.KeyedSets
import Hogl.Data.Runs
import Hogl.Data.Turns

namespace Hogl

open Hogl.Data

/-! # The areas of an engine

`add_area`, `find_area` and `apply_mask` of `src/engine.cc`, called by any
number of threads.  The map and the mask change under `_area_mutex`; `add_area`
applies the mask to its new area behind it. -/

abbrev AreaId := Nat

/-- `area::operator==`. -/
def MaskedArea.equal (first second : MaskedArea) : Bool :=
  first.name == second.name && first.size == second.size &&
    (List.range first.size).all fun index => first.sectionName index == second.sectionName index

/-- What a thread does next. -/
inductive AreaPc where
  | outside
  /-- `add_area` has made its area, and locks the mutex. -/
  | adding (made : MaskedArea)
  | inserting (made : MaskedArea)
  /-- It unlocks the mutex; the area under the name was inserted or found. -/
  | inserted (made : MaskedArea) (area : AreaId) (new : Bool)
  /-- `_mask.apply` is about to apply the element with this index. -/
  | applying (made : MaskedArea) (area : AreaId) (index : Nat)
  /-- `*na == *a`. -/
  | comparing (made : MaskedArea) (area : AreaId)
  /-- `find_area` locks the mutex, -/
  | finding (name : List UInt8)
  /-- looks the name up, -/
  | searching (name : List UInt8)
  /-- and unlocks it. -/
  | searched (name : List UInt8) (result : Option AreaId)
  /-- `apply_mask` locks the mutex, -/
  | masking (mask : Mask)
  /-- sets `_mask`, -/
  | assigning (mask : Mask)
  /-- is about to apply an element to the first of these areas, -/
  | walking (mask : Mask) (areas : List AreaId) (index : Nat)
  /-- and unlocks the mutex. -/
  | masked

/-- What a call has returned. -/
inductive AreaResult where
  | added (made : Area) (result : Option AreaId)
  /-- So many areas were registered at that time. -/
  | found (name : List UInt8) (result : Option AreaId) (registered : Nat)
deriving Repr, DecidableEq

/-- An area and, as ghosts, what it was made as and how many masks had been
replaced when it was registered. -/
structure RegisteredArea where
  area : MaskedArea
  born : MaskedArea
  since : Nat

structure Areas where
  mask : Mask
  /-- The areas in the order of their registration. -/
  areas : List RegisteredArea
  areaMap : List (List UInt8 × AreaId)
  mutex : Option Nat
  pc : Nat → AreaPc
  /-- All masks so far, the present one last (ghost). -/
  masks : List Mask
  /-- The elements that a thread has yet to apply to an area (ghost). -/
  left : AreaId → Option Mask
  /-- What the calls returned (ghost). -/
  results : List AreaResult

inductive AreaAction where
  | add (thread : Nat) (name : List UInt8) (sections : List (List UInt8))
  | find (thread : Nat) (name : List UInt8)
  | mask (thread : Nat) (mask : Mask)
  | step (thread : Nat)
deriving Repr, DecidableEq

/-- Between the return of `pthread_mutex_lock` and that of
`pthread_mutex_unlock`. -/
def AreaPc.inside : AreaPc → Bool
  | .inserting _ | .inserted _ _ _ | .searching _ | .searched _ _ | .assigning _ | .walking _ _ _
  | .masked => true
  | _ => false

/-- The order of the map. -/
def byName (first second : List UInt8 × AreaId) : Bool := decide (first.1 < second.1)

namespace Areas

variable (regex : Regex) (state : Areas)

def goto (thread : Nat) (pc : AreaPc) : Areas :=
  { state with pc := Function.update state.pc thread pc }

/-- `_area_map.find(name)`. -/
def findArea (name : List UInt8) : Option AreaId :=
  (state.areaMap.find? fun entry => entry.1 == name).map Prod.snd

def lock (thread : Nat) (pc : AreaPc) : Areas :=
  if state.mutex = none then { state with mutex := some thread }.goto thread pc else state

def unlock (thread : Nat) (pc : AreaPc) : Areas := { state with mutex := none }.goto thread pc

def give (result : AreaResult) : Areas := { state with results := state.results ++ [result] }

/-- An element of a mask is applied to an area. -/
def applyTo (area : AreaId) (data : MaskData) : Areas :=
  { state with
    areas := state.areas.modify area fun registered =>
      { registered with area := Mask.applyElement regex registered.area data }
    left := Function.update state.left area ((state.left area).map List.tail) }

/-- All elements were applied. -/
def finish (area : AreaId) : Areas := { state with left := Function.update state.left area none }

/-- A new area enters the map. -/
def register (made : MaskedArea) : Areas :=
  { state with
    areas := state.areas ++ [⟨made, made, state.masks.length - 1⟩]
    areaMap := setInsert byName (made.name, state.areas.length) state.areaMap
    left := Function.update state.left state.areas.length (some state.mask) }

def assign (mask : Mask) : Areas :=
  { state with
    mask
    masks := state.masks ++ [mask]
    left := fun area => if area < state.areas.length then some mask else none }

def advance (thread : Nat) : Areas :=
  match state.pc thread with
  | .outside => state
  | .adding made => state.lock thread (.inserting made)
  | .inserting made =>
      match state.findArea made.name with
      | some area => state.goto thread (.inserted made area false)
      | none => (state.register made).goto thread (.inserted made state.areas.length true)
  | .inserted made area new =>
      state.unlock thread (if new then .applying made area 0 else .comparing made area)
  | .applying made area index =>
      match state.mask[index]? with
      | some data => (state.applyTo regex area data).goto thread (.applying made area (index + 1))
      | none => ((state.finish area).give (.added made.toArea (some area))).goto thread .outside
  | .comparing made area =>
      let reuse := state.areas[area]?.any fun registered => made.equal registered.area
      (state.give (.added made.toArea (if reuse then some area else none))).goto thread .outside
  | .finding name => state.lock thread (.searching name)
  | .searching name => state.goto thread (.searched name (state.findArea name))
  | .searched name result =>
      (state.give (.found name result state.areas.length)).unlock thread .outside
  | .masking mask => state.lock thread (.assigning mask)
  | .assigning mask =>
      (state.assign mask).goto thread (.walking mask (state.areaMap.map Prod.snd) 0)
  | .walking _ [] _ => state.goto thread .masked
  | .walking mask (area :: rest) index =>
      match mask[index]? with
      | some data =>
          (state.applyTo regex area data).goto thread (.walking mask (area :: rest) (index + 1))
      | none => (state.finish area).goto thread (.walking mask rest 0)
  | .masked => state.unlock thread .outside

def call (thread : Nat) (pc : AreaPc) : Areas :=
  match state.pc thread with
  | .outside => state.goto thread pc
  | _ => state

def act : AreaAction → Areas
  | .add thread name sections =>
      match MaskedArea.create name sections with
      | some made => state.call thread (.adding made)
      | none => state
  | .find thread name => state.call thread (.finding name)
  | .mask thread mask => state.call thread (.masking mask)
  | .step thread => state.advance regex thread

/-- The constructor has registered the internal area. -/
def create (internal : MaskedArea) (mask : Mask) : Areas where
  mask
  areas := [⟨mask.apply regex internal, internal, 0⟩]
  areaMap := [(internal.name, 0)]
  mutex := none
  pc _ := .outside
  masks := [mask]
  left _ := none
  results := []

def after (start : Areas) (actions : List AreaAction) : Areas := runs (act regex) start actions

/-- `_mask` is about to be replaced while `add_area` is going through it. -/
def overlaps : AreaAction → Bool
  | .step thread =>
      match state.pc thread with
      | .assigning _ => (List.range state.areas.length).any fun area => (state.left area).isSome
      | _ => false
  | _ => false

/-- The kinds of the areas: their names and sections. -/
def kinds : List Area := state.areas.map fun registered => registered.area.toArea

end Areas

/-- A call that returns an area returns one of the kind that was asked for; one
that returns none has found another kind under the name, or nothing. -/
def AreaResult.Right (kinds : List Area) : AreaResult → Prop
  | .added made (some area) => kinds[area]? = some made
  | .added made none => ∃ kind ∈ kinds, kind.name = made.name ∧ kind ≠ made
  | .found name (some area) _ => ∃ kind, kinds[area]? = some kind ∧ kind.name = name
  | .found name none registered =>
      registered ≤ kinds.length ∧ ∀ kind ∈ kinds.take registered, kind.name ≠ name

/-- The thread is applying a mask to the area, or about to. -/
def AreaPc.On (area : AreaId) : AreaPc → Prop
  | .inserted _ other true | .applying _ other _ => other = area
  | .walking _ areas _ => area ∈ areas
  | _ => False

/-- `operator==` compares names and sections. -/
theorem MaskedArea.equal_iff {first second : MaskedArea} :
    first.equal second = true ↔ first.toArea = second.toArea := by
  simp only [equal, Bool.and_eq_true, beq_iff_eq, List.all_eq_true, List.mem_range]
  constructor
  · intro ⟨⟨name, size⟩, sections⟩
    have length : first.sections.length = second.sections.length := by
      rw [← first.sized, ← second.sized]
      exact size
    have same : first.sections = second.sections := by
      refine List.ext_getElem length fun index inside inside' => ?_
      have equal := sections index (by rw [MaskedArea.size, first.sized]; exact inside)
      rwa [Area.sectionName, Area.sectionName, List.getD_eq_getElem _ _ inside,
        List.getD_eq_getElem _ _ inside'] at equal
    exact congrArg₂ Area.mk name same
  · intro same
    have size : first.size = second.size := by
      rw [size, size, first.sized, second.sized, same]
    exact ⟨⟨congrArg Area.name same, size⟩, fun index _ => congrArg (·.sectionName index) same⟩

theorem AreaResult.Right.mono {kinds : List Area} {result : AreaResult}
    (right : result.Right kinds) (kind : Area) : result.Right (kinds ++ [kind]) := by
  have kept {area : AreaId} {other : Area} (found : kinds[area]? = some other) :
      (kinds ++ [kind])[area]? = some other := by
    rw [List.getElem?_append_left (List.getElem?_eq_some_iff.mp found).1, found]
  cases result with
  | added made result =>
      cases result with
      | some area => exact kept right
      | none =>
          obtain ⟨other, member, same⟩ := right
          exact ⟨other, List.mem_append_left _ member, same⟩
  | found name result registered =>
      cases result with
      | some area =>
          obtain ⟨other, found, same⟩ := right
          exact ⟨other, kept found, same⟩
      | none =>
          obtain ⟨bounded, missing⟩ := right
          refine ⟨by rw [List.length_append]; omega, ?_⟩
          rwa [List.take_append_of_le_length bounded]

namespace Areas

variable (regex : Regex) (state : Areas)

/-! ## What holds of the areas -/

/-- The map and the areas fit together, and each area, with what a thread has
yet to apply to it, follows the masks since its registration. -/
structure Sound : Prop where
  masks : ∃ older, state.masks = older ++ [state.mask]
  sorted : state.areaMap.Pairwise fun first second => byName first second = true
  named : ∀ name area, (name, area) ∈ state.areaMap ↔
    ∃ kind, state.kinds[area]? = some kind ∧ kind.name = name
  follows : ∀ area registered, state.areas[area]? = some registered →
    registered.since < state.masks.length ∧
      Mask.apply regex ((state.left area).getD []) registered.area =
        Mask.apply regex (state.masks.drop registered.since).flatten registered.born
  known : ∀ area, (state.left area).isSome = true → area < state.areas.length
  results : ∀ result ∈ state.results, result.Right state.kinds

/-- What a thread relies on. -/
def Stage : AreaPc → Prop
  | .inserted made area true =>
      state.kinds[area]? = some made.toArea ∧ state.left area = some state.mask
  | .inserted made area false | .comparing made area =>
      ∃ kind, state.kinds[area]? = some kind ∧ kind.name = made.name
  | .applying made area index =>
      state.kinds[area]? = some made.toArea ∧ state.left area = some (state.mask.drop index)
  | .searched name result => (AreaResult.found name result state.areas.length).Right state.kinds
  | .walking mask areas index => mask = state.mask ∧ areas.Nodup ∧
      match areas with
      | [] => True
      | area :: rest => state.left area = some (mask.drop index) ∧
          ∀ other ∈ rest, state.left other = some mask
  | _ => True

structure Orderly : Prop where
  sound : state.Sound regex
  turns : Turns true 0 state.mutex fun thread => (state.pc thread).inside
  walked : ∀ area, (state.left area).isSome = true → ∃ thread, (state.pc thread).On area
  alone : ∀ first second area, (state.pc first).On area → (state.pc second).On area →
    first = second
  stage : ∀ thread, state.Stage (state.pc thread)

variable {regex : Regex} {state : Areas}

section Data

variable {area : AreaId}

theorem length_kinds (state : Areas) : state.kinds.length = state.areas.length :=
  List.length_map _

theorem byName_weak : StrictWeak byName where
  asymm first second less := by
    simp only [byName, decide_eq_true_eq, decide_eq_false_iff_not] at less ⊢
    exact List.lt_asymm less
  cotrans first second third less := by
    simp only [byName, decide_eq_true_eq] at less ⊢
    by_cases below : first.1 < second.1
    · exact .inl below
    · exact .inr (List.lt_of_le_of_lt (List.not_lt.mp below) less)

/-- An element that is applied is one that is left no more. -/
theorem applyTo_areas (data : MaskData) (other : AreaId) :
    (state.applyTo regex area data).areas[other]? = (state.areas[other]?).map fun registered =>
      if area = other then
        { registered with area := Mask.applyElement regex registered.area data }
      else registered := by
  rw [applyTo, List.getElem?_modify]
  rfl

theorem applyTo_kinds (data : MaskData) : (state.applyTo regex area data).kinds = state.kinds := by
  apply List.ext_getElem?
  intro other
  rw [kinds, kinds, List.getElem?_map, List.getElem?_map, applyTo_areas, Option.map_map]
  congr 1
  funext registered
  rw [Function.comp_apply]
  split
  · exact (Mask.applyElement_spec regex registered.area data).1.toArea
  · rfl

theorem applyTo_length (data : MaskData) :
    (state.applyTo regex area data).areas.length = state.areas.length :=
  List.length_modify _ _ _

theorem Sound.applyTo (sound : state.Sound regex) {data : MaskData} {rest : Mask}
    (left : state.left area = some (data :: rest)) :
    (state.applyTo regex area data).Sound regex := by
  refine ⟨sound.masks, sound.sorted, ?_, fun other registered found => ?_, fun other some => ?_, ?_⟩
  · rw [applyTo_kinds]
    exact sound.named
  · rw [applyTo_areas, Option.map_eq_some_iff] at found
    obtain ⟨before, found, rfl⟩ := found
    obtain ⟨since, follows⟩ := sound.follows other before found
    change (if area = other then _ else before).since < state.masks.length ∧ _
    by_cases own : area = other
    · subst own
      rw [if_pos rfl]
      refine ⟨since, ?_⟩
      rw [left] at follows
      simp only [Areas.applyTo, Function.update_self, left]
      exact follows
    · rw [if_neg own]
      refine ⟨since, ?_⟩
      simp only [Areas.applyTo, Function.update_of_ne (Ne.symm own)]
      exact follows
  · rw [applyTo_length]
    apply sound.known
    by_cases own : other = area
    · subst own
      rw [left]
      rfl
    · simpa only [Areas.applyTo, Function.update_of_ne own] using some
  · rw [applyTo_kinds]
    exact sound.results

theorem Sound.finish (sound : state.Sound regex) (left : state.left area = some []) :
    (state.finish area).Sound regex := by
  refine ⟨sound.masks, sound.sorted, sound.named, fun other registered found => ?_,
    fun other some => ?_, sound.results⟩
  · obtain ⟨since, follows⟩ := sound.follows other registered found
    refine ⟨since, ?_⟩
    by_cases own : other = area
    · subst own
      rw [left] at follows
      simp only [Areas.finish, Function.update_self]
      exact follows
    · simp only [Areas.finish, Function.update_of_ne own]
      exact follows
  · by_cases own : other = area
    · subst own
      simp [Areas.finish] at some
    · simp only [Areas.finish, Function.update_of_ne own] at some
      exact sound.known other some

theorem Sound.give (sound : state.Sound regex) {result : AreaResult}
    (right : result.Right state.kinds) : (state.give result).Sound regex :=
  ⟨sound.masks, sound.sorted, sound.named, sound.follows, sound.known,
    fun other member => (List.mem_append.mp member).elim (sound.results other)
      fun last => List.mem_singleton.mp last ▸ right⟩

theorem findArea_some {name : List UInt8} (found : state.findArea name = some area) :
    (name, area) ∈ state.areaMap := by
  obtain ⟨entry, first, same⟩ := Option.map_eq_some_iff.mp found
  have named : entry.1 = name := by
    have matched := List.find?_some first
    exact eq_of_beq matched
  rw [← named, ← same]
  exact List.mem_of_find?_eq_some first

theorem findArea_none {name : List UInt8} (sound : state.Sound regex)
    (absent : state.findArea name = none) : ∀ kind ∈ state.kinds, kind.name ≠ name := by
  intro kind member same
  obtain ⟨area, found⟩ := List.mem_iff_getElem?.mp member
  have entry := (sound.named name area).mpr ⟨kind, found, same⟩
  have missing := List.find?_eq_none.mp (Option.map_eq_none_iff.mp absent) _ entry
  exact missing (beq_self_eq_true name)

theorem found_right (sound : state.Sound regex) (name : List UInt8) :
    (AreaResult.found name (state.findArea name) state.areas.length).Right state.kinds := by
  cases result : state.findArea name with
  | some area => exact (sound.named name area).mp (findArea_some result)
  | none =>
      refine ⟨(length_kinds state).ge, fun kind member => ?_⟩
      exact findArea_none sound result kind (List.mem_of_mem_take member)

theorem register_kinds (made : MaskedArea) :
    (state.register made).kinds = state.kinds ++ [made.toArea] := by
  rw [kinds, register, List.map_append]
  rfl

/-- A new area is as it was made, and the mask is left to be applied. -/
theorem Sound.register (sound : state.Sound regex) {made : MaskedArea}
    (absent : state.findArea made.name = none) : (state.register made).Sound regex := by
  have fresh := findArea_none sound absent
  obtain ⟨older, masks⟩ := sound.masks
  refine ⟨sound.masks, setInsert_sorted byName_weak _ sound.sorted, fun name area => ?_,
    fun area registered found => ?_, fun area some => ?_, fun result member => ?_⟩
  · have apart : ∀ entry ∈ state.areaMap, byName entry (made.name, state.areas.length) = true ∨
        byName (made.name, state.areas.length) entry = true := by
      intro entry member
      obtain ⟨kind, found, named⟩ := (sound.named entry.1 entry.2).mp member
      have different := fresh kind (List.mem_of_getElem? found)
      simp only [byName, decide_eq_true_eq]
      by_contra neither
      rw [not_or] at neither
      rw [named] at different
      exact different (List.le_antisymm (List.not_lt.mp neither.2) (List.not_lt.mp neither.1))
    rw [register_kinds]
    refine (setInsert_perm apart).mem_iff.trans ?_
    rw [List.mem_cons, Prod.mk.injEq, sound.named, ← length_kinds]
    constructor
    · intro either
      rcases either with ⟨rfl, rfl⟩ | ⟨kind, found, named⟩
      · exact ⟨made.toArea, List.getElem?_concat_length, rfl⟩
      · rw [← named]
        have inside := (List.getElem?_eq_some_iff.mp found).1
        exact ⟨kind, (List.getElem?_append_left inside).trans found, rfl⟩
    · intro ⟨kind, found, named⟩
      rcases getElem?_concat_cases found with ⟨-, found⟩ | ⟨rfl, rfl⟩
      · exact .inr ⟨kind, found, named⟩
      · exact .inl ⟨named.symm, rfl⟩
  · rcases getElem?_concat_cases found with ⟨inside, found⟩ | ⟨rfl, rfl⟩
    · obtain ⟨since, follows⟩ := sound.follows area registered found
      refine ⟨since, ?_⟩
      simp only [Areas.register, Function.update_of_ne (Nat.ne_of_lt inside)]
      exact follows
    · have last : state.masks.length - 1 = older.length := by
        rw [masks, List.length_append, List.length_singleton, Nat.add_sub_cancel]
      refine ⟨?_, ?_⟩
      · change state.masks.length - 1 < state.masks.length
        rw [last, masks, List.length_append, List.length_singleton]
        exact Nat.lt_succ_self _
      · change Mask.apply regex ((Function.update state.left state.areas.length (some state.mask)
          state.areas.length).getD []) made =
            Mask.apply regex (state.masks.drop (state.masks.length - 1)).flatten made
        rw [Function.update_self, last, masks, List.drop_left, List.flatten_singleton]
        rfl
  · change area < (state.areas ++ [_]).length
    rw [List.length_append, List.length_singleton]
    by_cases own : area = state.areas.length
    · exact own ▸ Nat.lt_succ_self area
    · simp only [Areas.register, Function.update_of_ne own] at some
      exact Nat.lt_succ_of_lt (sound.known area some)
  · rw [register_kinds]
    exact (sound.results result member).mono made.toArea

/-- Where nothing is left of the mask before, all of the new one is. -/
theorem Sound.assign (sound : state.Sound regex) (idle : ∀ area, state.left area = none)
    (mask : Mask) : (state.assign mask).Sound regex := by
  refine ⟨⟨state.masks, rfl⟩, sound.sorted, sound.named, fun area registered found => ?_,
    fun area some => ?_, sound.results⟩
  · obtain ⟨since, follows⟩ := sound.follows area registered found
    have inside : area < state.areas.length := (List.getElem?_eq_some_iff.mp found).1
    rw [idle] at follows
    simp only [Areas.assign, if_pos inside, Option.getD_some, List.length_append]
    refine ⟨by omega, ?_⟩
    rw [List.drop_append_of_le_length (Nat.le_of_lt since), List.flatten_append,
      List.flatten_singleton, Mask.apply_append, ← follows]
    rfl
  · by_contra outside
    have nothing : (state.assign mask).left area = none := if_neg outside
    rw [nothing] at some
    cases some

end Data

/-! ## What every step keeps -/

namespace Orderly

variable {thread : Nat} {place : AreaPc} {next : Areas}

/-- A thread moves on and takes its knowledge with it. -/
theorem moves (orderly : state.Orderly regex) (sound : next.Sound regex) (pcs : next.pc = state.pc)
    (turns : Turns true 0 next.mutex
      (Function.update (fun thread => (state.pc thread).inside) thread place.inside))
    (walked : ∀ area, (next.left area).isSome = true →
      place.On area ∨ ∃ other, other ≠ thread ∧ (state.pc other).On area)
    (alone : ∀ other area, other ≠ thread → (state.pc other).On area → ¬ place.On area)
    (others : ∀ other, other ≠ thread → next.Stage (state.pc other)) (own : next.Stage place) :
    (next.goto thread place).Orderly regex := by
  have here : (next.goto thread place).pc thread = place := Function.update_self _ _ _
  have there {other : Nat} (different : other ≠ thread) :
      (next.goto thread place).pc other = state.pc other :=
    (Function.update_of_ne different _ _).trans (congrFun pcs other)
  refine ⟨⟨sound.masks, sound.sorted, sound.named, sound.follows, sound.known, sound.results⟩, ?_,
    fun area left => ?_, fun first second area firstOn secondOn => ?_, fun other => ?_⟩
  · have same : (fun other => ((next.goto thread place).pc other).inside) =
        Function.update (fun other => (state.pc other).inside) thread place.inside := by
      funext other
      by_cases own : other = thread
      · rw [own, here, Function.update_self]
      · rw [there own, Function.update_of_ne own]
    rw [same]
    exact turns
  · rcases walked area left with on | ⟨other, different, on⟩
    · exact ⟨thread, here.symm ▸ on⟩
    · exact ⟨other, (there different).symm ▸ on⟩
  · by_cases firstOwn : first = thread
    · by_cases secondOwn : second = thread
      · exact firstOwn.trans secondOwn.symm
      · rw [there secondOwn] at secondOn
        rw [firstOwn, here] at firstOn
        exact absurd firstOn (alone second area secondOwn secondOn)
    · rw [there firstOwn] at firstOn
      by_cases secondOwn : second = thread
      · rw [secondOwn, here] at secondOn
        exact absurd secondOn (alone first area firstOwn firstOn)
      · rw [there secondOwn] at secondOn
        exact orderly.alone first second area firstOn secondOn
  · by_cases same : other = thread
    · rw [same, here]
      exact own
    · rw [there same]
      exact others other same

theorem sides (orderly : state.Orderly regex) (same : place.inside = (state.pc thread).inside) :
    Turns true 0 state.mutex
      (Function.update (fun thread => (state.pc thread).inside) thread place.inside) := by
  rw [same, Function.update_eq_self]
  exact orderly.turns

/-- The thread is on the same areas as before. -/
theorem strolls (orderly : state.Orderly regex) {mutex : Option Nat} {results : List AreaResult}
    (sound : Sound regex { state with mutex, results })
    (turns : Turns true 0 mutex
      (Function.update (fun thread => (state.pc thread).inside) thread place.inside))
    (same : ∀ area, place.On area ↔ (state.pc thread).On area) (own : state.Stage place) :
    (goto { state with mutex, results } thread place).Orderly regex := by
  refine orderly.moves sound rfl turns (fun area left => ?_) (fun other area different on own => ?_)
    (fun other _ => orderly.stage other) own
  · obtain ⟨other, on⟩ := orderly.walked area left
    by_cases own : other = thread
    · exact .inl ((same area).mpr (own ▸ on))
    · exact .inr ⟨other, own, on⟩
  · exact different (orderly.alone other thread area on ((same area).mp own))

end Orderly

/-- A thread sees nothing of what happens to areas it is not on. -/
theorem Stage.same {pc : AreaPc} {next : Areas} (stage : state.Stage pc)
    (mask : next.mask = state.mask) (kinds : next.kinds = state.kinds)
    (left : ∀ area, pc.On area → next.left area = state.left area) : next.Stage pc := by
  have length : next.areas.length = state.areas.length := by
    rw [← length_kinds, ← length_kinds, kinds]
  cases pc with
  | inserted made area new =>
      cases new with
      | true => exact ⟨kinds ▸ stage.1, by rw [left area rfl, mask]; exact stage.2⟩
      | false =>
          simp only [Stage, kinds]
          exact stage
  | applying made area index =>
      exact ⟨kinds ▸ stage.1, by rw [left area rfl, mask]; exact stage.2⟩
  | comparing made area | searched name result =>
      simp only [Stage, kinds, length]
      exact stage
  | walking walked areas index =>
      obtain ⟨same, distinct, ahead⟩ := stage
      refine ⟨same.trans mask.symm, distinct, ?_⟩
      cases areas with
      | nil => trivial
      | cons area rest =>
          refine ⟨(left area List.mem_cons_self).trans ahead.1, fun other member => ?_⟩
          exact (left other (List.mem_cons_of_mem _ member)).trans (ahead.2 other member)
  | _ => trivial

/-- A thread is on registered areas only. -/
theorem Stage.left_some {pc : AreaPc} (stage : state.Stage pc) {area : AreaId} (on : pc.On area) :
    (state.left area).isSome = true := by
  cases pc with
  | inserted made other new =>
      cases new with
      | true =>
          obtain rfl : other = area := on
          rw [stage.2]
          rfl
      | false => cases on
  | applying made other index =>
      obtain rfl : other = area := on
      rw [stage.2]
      rfl
  | walking mask areas index =>
      obtain ⟨-, -, ahead⟩ := stage
      cases areas with
      | nil => cases on
      | cons first rest =>
          rcases List.mem_cons.mp on with rfl | member
          · rw [ahead.1]
            rfl
          · rw [ahead.2 area member]
            rfl
  | _ => cases on

namespace Orderly

variable {thread : Nat} {place : AreaPc} {next : Areas}

theorem lock (orderly : state.Orderly regex) (inside : place.inside = true)
    (nowhere : ∀ area, ¬ (state.pc thread).On area)
    (off : ∀ area, ¬ place.On area) (own : state.Stage place) :
    (state.lock thread place).Orderly regex := by
  rw [Areas.lock]
  split
  · rename_i free
    have turns : Turns true 0 (some thread)
        (Function.update (fun thread => (state.pc thread).inside) thread place.inside) := by
      rw [inside]
      exact orderly.turns.enter free
    exact orderly.strolls ⟨orderly.sound.masks, orderly.sound.sorted, orderly.sound.named,
      orderly.sound.follows, orderly.sound.known, orderly.sound.results⟩ turns
      (fun area => iff_of_false (off area) (nowhere area)) own
  · exact orderly

theorem unlock (orderly : state.Orderly regex) (inside : (state.pc thread).inside = true)
    (outside : place.inside = false) {results : List AreaResult}
    (right : ∀ result ∈ results, result.Right state.kinds)
    (same : ∀ area, place.On area ↔ (state.pc thread).On area) (own : state.Stage place) :
    (goto { state with mutex := none, results } thread place).Orderly regex := by
  have turns : Turns true 0 none
      (Function.update (fun thread => (state.pc thread).inside) thread place.inside) := by
    rw [outside]
    exact orderly.turns.leave inside
  exact orderly.strolls ⟨orderly.sound.masks, orderly.sound.sorted, orderly.sound.named,
    orderly.sound.follows, orderly.sound.known, right⟩ turns same own

/-- The thread works on an area that is its own. -/
theorem works (orderly : state.Orderly regex) {area : AreaId} (on : (state.pc thread).On area)
    (sound : next.Sound regex) (pcs : next.pc = state.pc) (mutex : next.mutex = state.mutex)
    (same : place.inside = (state.pc thread).inside) (mask : next.mask = state.mask)
    (kinds : next.kinds = state.kinds)
    (left : ∀ other, other ≠ area → next.left other = state.left other)
    (ahead : ∀ other, place.On other → (state.pc thread).On other)
    (behind : ∀ other, (state.pc thread).On other → place.On other ∨ next.left other = none)
    (own : next.Stage place) : (next.goto thread place).Orderly regex := by
  refine orderly.moves sound pcs (mutex ▸ orderly.sides same) (fun other some => ?_)
    (fun other area' different on' own' => ?_) (fun other different => ?_) own
  · have walked : ∃ walker, (state.pc walker).On other := by
      by_cases own : other = area
      · exact ⟨thread, own ▸ on⟩
      · exact orderly.walked other (left other own ▸ some)
    obtain ⟨walker, on'⟩ := walked
    by_cases same : walker = thread
    · rcases behind other (same ▸ on') with still | nothing
      · exact .inl still
      · rw [nothing] at some
        cases some
    · exact .inr ⟨walker, same, on'⟩
  · exact different (orderly.alone other thread area' on' (ahead area' own'))
  · refine (orderly.stage other).same mask kinds fun area' on' => left area' fun same => ?_
    exact different (orderly.alone other thread area (same ▸ on') on)

theorem insert (orderly : state.Orderly regex) {made : MaskedArea}
    (here : state.pc thread = .inserting made) : (state.advance regex thread).Orderly regex := by
  have stays (place : AreaPc) (inside : place.inside = true) : place.inside =
      (state.pc thread).inside := by
    rw [inside, here]
    rfl
  simp only [advance, here]
  split
  · rename_i area found
    have named := (orderly.sound.named made.name area).mp (findArea_some found)
    refine orderly.strolls orderly.sound (orderly.sides (stays _ rfl)) (fun area => ?_) named
    rw [here]
    exact iff_of_false id id
  · rename_i absent
    have below (other : Nat) (area : AreaId) (on : (state.pc other).On area) :
        area < state.areas.length :=
      orderly.sound.known area ((orderly.stage other).left_some on)
    have nowhere (area : AreaId) : ¬ (state.pc thread).On area := by
      rw [here]
      exact id
    refine orderly.moves (orderly.sound.register absent) rfl (orderly.sides (stays _ rfl))
      (fun area some => ?_) (fun other area _ on own => ?_) (fun other different => ?_) ?_
    · by_cases new : area = state.areas.length
      · exact .inl new.symm
      · simp only [register, Function.update_of_ne new] at some
        obtain ⟨other, on⟩ := orderly.walked area some
        exact .inr ⟨other, fun same => nowhere area (same ▸ on), on⟩
    · obtain rfl : state.areas.length = area := own
      exact Nat.lt_irrefl _ (below other _ on)
    · -- nobody else holds the mutex, so the others are not looking at the map
      have inside : (state.pc thread).inside = true := by rw [here]; rfl
      have out : (state.pc other).inside = false := orderly.turns.outside_of_ne inside different
      have stage := orderly.stage other
      cases pc : state.pc other with
      | applying made' area index =>
          rw [pc] at stage
          have lower := below other area (by rw [pc]; exact rfl)
          refine ⟨?_, ?_⟩
          · rw [register_kinds, List.getElem?_append_left (by rwa [length_kinds])]
            exact stage.1
          · exact (Function.update_of_ne (Nat.ne_of_lt lower) _ _).trans stage.2
      | comparing made' area =>
          rw [pc] at stage
          obtain ⟨kind, found, named⟩ := stage
          refine ⟨kind, ?_, named⟩
          rw [register_kinds, List.getElem?_append_left (List.getElem?_eq_some_iff.mp found).1]
          exact found
      | inserted | searched | walking =>
          rw [pc] at out
          cases out
      | _ => trivial
    · refine ⟨?_, Function.update_self _ _ _⟩
      rw [register_kinds, ← length_kinds]
      exact List.getElem?_concat_length

/-- The mask is replaced while nobody goes through it. -/
theorem assigns (orderly : state.Orderly regex) {mask : Mask}
    (here : state.pc thread = .assigning mask)
    (apart : state.overlaps (.step thread) = false) :
    (state.advance regex thread).Orderly regex := by
  have idle (area : AreaId) : state.left area = none := by
    by_contra some
    have left := Option.isSome_iff_ne_none.mpr some
    have inside := orderly.sound.known area left
    simp only [overlaps, here, List.any_eq_false, List.mem_range] at apart
    exact apart area inside left
  have off (other : Nat) (area : AreaId) : ¬ (state.pc other).On area := by
    intro on
    have left := (orderly.stage other).left_some on
    rw [idle] at left
    cases left
  have listed (area : AreaId) : area ∈ state.areaMap.map Prod.snd ↔ area < state.areas.length := by
    rw [← length_kinds]
    constructor
    · intro member
      obtain ⟨⟨name, area⟩, inside, rfl⟩ := List.mem_map.mp member
      obtain ⟨kind, found, -⟩ := (orderly.sound.named name area).mp inside
      exact (List.getElem?_eq_some_iff.mp found).1
    · intro inside
      have entry := (orderly.sound.named _ area).mpr ⟨_, List.getElem?_eq_getElem inside, rfl⟩
      exact List.mem_map_of_mem entry
  have distinct : (state.areaMap.map Prod.snd).Nodup := by
    rw [List.Nodup, List.pairwise_map]
    refine orderly.sound.sorted.imp_of_mem fun {first second} before after less same => ?_
    obtain ⟨kind, found, named⟩ := (orderly.sound.named first.1 first.2).mp before
    obtain ⟨other, found', named'⟩ := (orderly.sound.named second.1 second.2).mp after
    rw [same, found'] at found
    rw [byName, ← named, ← named', Option.some.inj found] at less
    exact List.lt_irrefl _ (of_decide_eq_true less)
  have whole (area : AreaId) (inside : area < state.areas.length) :
      (state.assign mask).left area = some mask := if_pos inside
  simp only [advance, here]
  refine orderly.moves (orderly.sound.assign idle mask) rfl
    (orderly.sides (by rw [here]; rfl)) (fun area some => ?_) (fun other area _ on => ?_)
    (fun other different => ?_) ⟨rfl, distinct, ?_⟩
  · exact .inl ((listed area).mpr ((orderly.sound.assign idle mask).known area some))
  · exact absurd on (off other area)
  · have stage := orderly.stage other
    have nowhere := off other
    cases pc : state.pc other with
    | inserted made area new =>
        rw [pc] at stage nowhere
        cases new with
        | true => exact absurd rfl (nowhere area)
        | false => exact stage
    | applying made area index =>
        rw [pc] at nowhere
        exact absurd rfl (nowhere area)
    | walking walked areas index =>
        have inside : (state.pc thread).inside = true := by rw [here]; rfl
        have out : (state.pc other).inside = false := orderly.turns.outside_of_ne inside different
        rw [pc] at out
        cases out
    | comparing | searched =>
        rw [pc] at stage
        exact stage
    | _ => trivial
  · split
    · trivial
    · rename_i area rest same
      have inside (other : AreaId) (member : other ∈ area :: rest) : other < state.areas.length :=
        (listed other).mp (same ▸ member)
      exact ⟨whole area (inside area List.mem_cons_self), fun other member =>
        whole other (inside other (List.mem_cons_of_mem _ member))⟩

/-- The areas that `apply_mask` has been through need nothing more. -/
theorem walks (orderly : state.Orderly regex) {mask : Mask} {area : AreaId} {rest : List AreaId}
    {index : Nat} (here : state.pc thread = .walking mask (area :: rest) index) :
    (state.advance regex thread).Orderly regex := by
  have on : (state.pc thread).On area := by
    rw [here]
    exact List.mem_cons_self
  have stage := orderly.stage thread
  rw [here] at stage
  obtain ⟨same, distinct, first, others⟩ := stage
  obtain ⟨apart, distinct'⟩ := List.nodup_cons.mp distinct
  simp only [advance, here]
  split
  · rename_i data found
    obtain ⟨inside, rfl⟩ := List.getElem?_eq_some_iff.mp found
    rw [List.drop_eq_getElem_cons inside] at first
    refine orderly.works on (orderly.sound.applyTo first) rfl rfl (by rw [here]; rfl) rfl
      (applyTo_kinds _) (fun other different => Function.update_of_ne different _ _)
      (fun other member => by rw [here]; exact member)
      (fun other member => .inl (by rw [here] at member; exact member))
      ⟨same, distinct, ?_, fun other member => ?_⟩
    · simp only [applyTo, Function.update_self, first]
      rfl
    · have different : other ≠ area := fun equal => apart (equal ▸ member)
      exact (Function.update_of_ne different _ _).trans (others other member)
  · rename_i ended
    rw [List.drop_eq_nil_of_le (List.getElem?_eq_none_iff.mp ended)] at first
    refine orderly.works on (orderly.sound.finish first) rfl rfl (by rw [here]; rfl) rfl rfl
      (fun other different => Function.update_of_ne different _ _)
      (fun other member => by rw [here]; exact List.mem_cons_of_mem _ member)
      (fun other member => ?_) ⟨same, distinct', ?_⟩
    · rw [here] at member
      rcases List.mem_cons.mp member with rfl | member
      · exact .inr (Function.update_self _ _ _)
      · exact .inl member
    · have kept (other : AreaId) (member : other ∈ rest) :
          (state.finish area).left other = some mask := by
        have different : other ≠ area := fun equal => apart (equal ▸ member)
        exact (Function.update_of_ne different _ _).trans (others other member)
      cases rest with
      | nil => trivial
      | cons next rest => exact ⟨kept next List.mem_cons_self, fun other member =>
          kept other (List.mem_cons_of_mem _ member)⟩

theorem applies (orderly : state.Orderly regex) {made : MaskedArea} {area : AreaId} {index : Nat}
    (here : state.pc thread = .applying made area index) :
    (state.advance regex thread).Orderly regex := by
  have on : (state.pc thread).On area := by rw [here]; exact rfl
  have stage := orderly.stage thread
  rw [here] at stage
  obtain ⟨kind, left⟩ := stage
  simp only [advance, here]
  split
  · rename_i data found
    obtain ⟨inside, rfl⟩ := List.getElem?_eq_some_iff.mp found
    rw [List.drop_eq_getElem_cons inside] at left
    refine orderly.works on (orderly.sound.applyTo left) rfl rfl (by rw [here]; rfl) rfl
      (applyTo_kinds _) (fun other different => Function.update_of_ne different _ _)
      (fun other same => by rw [here]; exact same)
      (fun other same => .inl (by rw [here] at same; exact same)) ⟨?_, ?_⟩
    · rw [applyTo_kinds]
      exact kind
    · simp only [applyTo, Function.update_self, left]
      rfl
  · rename_i ended
    rw [List.drop_eq_nil_of_le (List.getElem?_eq_none_iff.mp ended)] at left
    have right : (AreaResult.added made.toArea (some area)).Right state.kinds := kind
    refine orderly.works on ((orderly.sound.finish left).give right) rfl rfl (by rw [here]; rfl) rfl
      rfl (fun other different => Function.update_of_ne different _ _) (fun other none => none.elim)
      (fun other same => ?_) trivial
    rw [here] at same
    obtain rfl : area = other := same
    exact .inr (Function.update_self _ _ _)

theorem compares (orderly : state.Orderly regex) {made : MaskedArea} {area : AreaId}
    (here : state.pc thread = .comparing made area) :
    (state.advance regex thread).Orderly regex := by
  have stage := orderly.stage thread
  rw [here] at stage
  obtain ⟨kind, found, named⟩ := stage
  rw [kinds, List.getElem?_map, Option.map_eq_some_iff] at found
  obtain ⟨registered, found, rfl⟩ := found
  have kind : state.kinds[area]? = some registered.area.toArea := by
    rw [kinds, List.getElem?_map, found]
    rfl
  have right : (AreaResult.added made.toArea (if (state.areas[area]?.any fun registered =>
      made.equal registered.area) = true then some area else none)).Right state.kinds := by
    rw [found, Option.any_some]
    split
    · rename_i reused
      exact kind.trans (congrArg some (MaskedArea.equal_iff.mp reused).symm)
    · rename_i other
      refine ⟨registered.area.toArea, List.mem_of_getElem? kind, named, fun same => ?_⟩
      exact other (MaskedArea.equal_iff.mpr same.symm)
  simp only [advance, here]
  refine orderly.strolls (orderly.sound.give right) (orderly.sides (by rw [here]; rfl))
    (fun area => ?_) trivial
  rw [here]
  exact iff_of_false id id

theorem advance (orderly : state.Orderly regex) (thread : Nat)
    (apart : state.overlaps (.step thread) = false) :
    (state.advance regex thread).Orderly regex := by
  have stage := orderly.stage thread
  have results := orderly.sound.results
  cases here : state.pc thread with
  | outside =>
      simp only [Areas.advance, here]
      exact orderly
  | adding made | finding name | masking mask =>
      simp only [Areas.advance, here]
      exact orderly.lock rfl (by rw [here]; exact fun _ => id) (fun _ => id) trivial
  | inserting made => exact orderly.insert here
  | inserted made area new =>
      rw [here] at stage
      simp only [Areas.advance, here]
      cases new with
      | true =>
          refine orderly.unlock (by rw [here]; rfl) rfl results (fun other => ?_) stage
          rw [here]
          exact Iff.rfl
      | false =>
          refine orderly.unlock (by rw [here]; rfl) rfl results (fun other => ?_) stage
          rw [here]
          exact Iff.rfl
  | applying made area index => exact orderly.applies here
  | comparing made area => exact orderly.compares here
  | searching name =>
      simp only [Areas.advance, here]
      refine orderly.strolls orderly.sound (orderly.sides (by rw [here]; rfl)) (fun area => ?_)
        (found_right orderly.sound name)
      rw [here]
      exact Iff.rfl
  | searched name result =>
      rw [here] at stage
      simp only [Areas.advance, here]
      refine orderly.unlock (by rw [here]; rfl) rfl (orderly.sound.give stage).results
        (fun area => ?_) trivial
      rw [here]
      exact Iff.rfl
  | assigning mask => exact orderly.assigns here apart
  | walking mask areas index =>
      cases areas with
      | nil =>
          simp only [Areas.advance, here]
          refine orderly.strolls orderly.sound (orderly.sides (by rw [here]; rfl)) (fun area => ?_)
            trivial
          rw [here]
          exact iff_of_false id List.not_mem_nil
      | cons area rest => exact orderly.walks here
  | masked =>
      simp only [Areas.advance, here]
      refine orderly.unlock (by rw [here]; rfl) rfl results (fun area => ?_) trivial
      rw [here]
      exact Iff.rfl

theorem call (orderly : state.Orderly regex) (thread : Nat) (outside : place.inside = false)
    (off : ∀ area, ¬ place.On area) (own : state.Stage place) :
    (state.call thread place).Orderly regex := by
  rw [Areas.call]
  split
  · rename_i here
    refine orderly.strolls orderly.sound (orderly.sides (by rw [here, outside]; rfl))
      (fun area => ?_) own
    rw [here]
    exact iff_of_false (off area) id
  · exact orderly

theorem act (orderly : state.Orderly regex) (action : AreaAction)
    (apart : state.overlaps action = false) : (state.act regex action).Orderly regex := by
  cases action with
  | add thread name sections =>
      simp only [Areas.act]
      split
      · exact orderly.call thread rfl (fun _ => id) trivial
      · exact orderly
  | find thread name => exact orderly.call thread rfl (fun _ => id) trivial
  | mask thread mask => exact orderly.call thread rfl (fun _ => id) trivial
  | step thread => exact orderly.advance thread apart

theorem create (regex : Regex) (internal : MaskedArea) (mask : Mask) :
    (Areas.create regex internal mask).Orderly regex := by
  have same := (Mask.apply_spec regex mask internal).1.toArea
  have only {α : Type} {item other : α} {index : Nat} (found : [item][index]? = some other) :
      index = 0 ∧ item = other := by
    rcases @getElem?_concat_cases _ [] _ _ _ found with ⟨inside, -⟩ | last
    · exact absurd inside (Nat.not_lt_zero _)
    · exact last
  refine ⟨⟨⟨[], rfl⟩, List.pairwise_singleton _ _, fun name area => ?_,
    fun area registered found => ?_, fun area some => ?_, List.forall_mem_nil _⟩, ?_,
    fun area some => ?_, fun first second area on => ?_, fun _ => trivial⟩
  · change (name, area) ∈ [(internal.name, 0)] ↔
      ∃ kind, [(mask.apply regex internal).toArea][area]? = some kind ∧ kind.name = name
    rw [List.mem_singleton, Prod.mk.injEq]
    constructor
    · rintro ⟨rfl, rfl⟩
      exact ⟨_, rfl, congrArg Area.name same⟩
    · intro ⟨kind, found, named⟩
      obtain ⟨rfl, rfl⟩ := only found
      exact ⟨named.symm.trans (congrArg Area.name same), rfl⟩
  · obtain ⟨rfl, rfl⟩ := only found
    refine ⟨Nat.one_pos, ?_⟩
    simp only [Areas.create, Option.getD_none, List.drop_zero, List.flatten_singleton]
    rfl
  · cases some
  · change ∀ thread : Nat, false = true ↔ none = some thread
    exact fun thread => iff_of_false Bool.false_ne_true (Option.some_ne_none thread).symm
  · cases some
  · cases on

end Orderly

/-- As long as `_mask` is not replaced between the insertion of an area and the
end of its application by `add_area`, each area is what the masks in force since
its registration make of it, one after another, as soon as nobody is applying a
mask to it; there is one area for each name, and the calls return what they
should. -/
theorem areas_follow_masks (regex : Regex) (internal : MaskedArea) (mask : Mask)
    (actions : List AreaAction) (apart : AtEach (fun earlier action =>
      ¬ ((create regex internal mask).after regex earlier).overlaps action) actions) :
    let state := (create regex internal mask).after regex actions
    (∀ area registered, state.areas[area]? = some registered →
      (∀ thread, ¬ (state.pc thread).On area) →
        registered.area = Mask.apply regex (state.masks.drop registered.since).flatten
          registered.born) ∧
    state.areaMap.Pairwise (fun first second => first.1 < second.1) ∧
    (∀ name area, (name, area) ∈ state.areaMap ↔
      ∃ registered, state.areas[area]? = some registered ∧ registered.area.name = name) ∧
    ∀ result ∈ state.results, result.Right state.kinds := by
  intro state
  have orderly : state.Orderly regex := runs_invariant_unless (Orderly.create regex internal mask)
    (fun _ action orderly apart => orderly.act action (Bool.eq_false_of_not_eq_true apart)) actions
    apart
  refine ⟨fun area registered found nobody => ?_, ?_, fun name area => ?_, orderly.sound.results⟩
  · obtain ⟨-, follows⟩ := orderly.sound.follows area registered found
    have nothing : state.left area = none := by
      by_contra some
      obtain ⟨thread, on⟩ := orderly.walked area (Option.isSome_iff_ne_none.mpr some)
      exact nobody thread on
    rw [nothing] at follows
    exact follows
  · exact orderly.sound.sorted.imp fun less => of_decide_eq_true less
  · rw [orderly.sound.named, kinds, List.getElem?_map]
    constructor
    · intro ⟨kind, found, named⟩
      obtain ⟨registered, at', rfl⟩ := Option.map_eq_some_iff.mp found
      exact ⟨registered, at', named⟩
    · intro ⟨registered, found, named⟩
      exact ⟨_, by rw [found]; rfl, named⟩

/-- The area `HOGL` with its one section off. -/
def quietArea : MaskedArea := ⟨⟨ascii "HOGL", [ascii "INFO"]⟩, ⟨1, [0], by decide⟩, rfl⟩

def infoOn : Mask := [⟨ascii "INFO", ascii ".*", ascii "INFO", true⟩]

def debugOff : Mask := [⟨ascii "!DEBUG", ascii ".*", ascii "DEBUG", false⟩]

/-- Two threads add an area of one name, with other sections the second time. -/
def addRun : List AreaAction :=
  [.add 0 (ascii "DEF") [ascii "INFO", ascii "DEBUG"], .step 0, .step 0, .step 0, .step 0, .step 0,
    .mask 0 debugOff, .step 0, .step 0, .add 1 (ascii "DEF") [ascii "INFO"]] ++
    List.replicate 6 (.step 0) ++ List.replicate 4 (.step 1)

theorem areas_follow_masks_twice :
    let state := (create Mask.wildcards quietArea infoOn).after Mask.wildcards addRun
    state.results = [.added ⟨ascii "DEF", [ascii "INFO", ascii "DEBUG"]⟩ (some 1),
      .added ⟨ascii "DEF", [ascii "INFO"]⟩ none] ∧
    ∀ result ∈ state.results, result.Right state.kinds := by
  intro state
  have follow := areas_follow_masks Mask.wildcards quietArea infoOn addRun (by decide +kernel)
  exact ⟨by decide +kernel, follow.2.2.2⟩

/-- A mask that is replaced between the insertion and the application is lost
on the new area. -/
example :
    let state := (create Mask.wildcards quietArea infoOn).after Mask.wildcards
      ([.add 0 (ascii "DEF") [ascii "INFO", ascii "DEBUG"], .step 0, .step 0, .step 0,
        .mask 1 debugOff] ++ List.replicate 9 (.step 1) ++ List.replicate 3 (.step 0))
    state.results = [.added ⟨ascii "DEF", [ascii "INFO", ascii "DEBUG"]⟩ (some 1)] ∧
      (state.areas[0]?.any fun registered => registered.area.test 0) = true ∧
      (state.areas[1]?.any fun registered => registered.area.test 0) = false := by
  decide +kernel

end Areas

end Hogl
