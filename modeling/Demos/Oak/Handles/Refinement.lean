import Demos.Oak.Event.Effects
import Demos.Oak.Handles.Safety

/-!
# Interleaved updates refine sequential ones

While the main thread walks over the contexts, the parser threads go on counting and reporting. None
of this shows in the end: whenever `HandleInputEvent` has returned, the handles and the tags of all
contexts, the configuration and what was written are those that the calls leave when they run one
after the other, with nobody else around. Only the counters of the tags differ. A call that changes
tags while a parser thread walks through them does not return.
-/

namespace Demos.Oak

open Demos.Lib

namespace Shared

variable {dir : Bytes} {n i : ℕ} {s s' : Shared} {event : HandleEvent} {labels : List HandleEvent}
  {context : ParserContext ℕ} {a : Runtime ℕ} {tag : ProtocolTag} {load : LoadOutcome ℕ}
  {tags : Std.ExtTreeMap UInt64 ProtocolTag}

section Expectation

/-- Tags that differ in their counters only. -/
def SameTags (tags tags' : Std.ExtTreeMap UInt64 ProtocolTag) : Prop :=
  ∀ id : UInt64, tags[id]?.map ProtocolTag.reset = tags'[id]?.map ProtocolTag.reset

/-- What is known of the tables of a context. -/
structure Expect where
  handles : Option (Std.ExtTreeMap UInt64 ℕ)
  tags : Option (Std.ExtTreeMap UInt64 ProtocolTag)

/-- The tables are those of the other context. -/
def full (context : ParserContext ℕ) : Expect := ⟨some context.handles, some context.tags⟩

/-- The context is as expected. -/
structure Meets (context : ParserContext ℕ) (expect : Expect) : Prop where
  handles : ∀ handles, expect.handles = some handles → context.handles = handles
  tags : ∀ tags, expect.tags = some tags → SameTags context.tags tags

/-- What the context under the lock is, by what it was before the call. -/
def stage (context : ParserContext ℕ) : UpdatePc → Expect
  | .inside _ .clear _ => ⟨none, none⟩
  | .tagged _ module tag _ _ => ⟨some context.handles, some (context.tags.insert module.id tag)⟩
  | .erased _ (.remove module) _ => ⟨some (context.handles.erase module.id), some context.tags⟩
  | .erased _ _ _ => ⟨some ∅, none⟩
  | _ => full context

/-- How many contexts the call is done with. -/
def place (n : ℕ) : UpdatePc → ℕ
  | .idle => 0
  | .next _ _ i | .inside _ _ i | .alarming _ _ _ i | .opened _ _ _ _ i | .tagged _ _ _ _ i
  | .erased _ _ i => i
  | .leave _ _ i success => if success then i + 1 else i
  | .commit _ _ => n

/-- The job of the call. -/
def jobOf : UpdatePc → Job
  | .idle => .clear
  | .next _ job _ | .inside _ job _ | .erased _ job _ | .leave _ job _ _ | .commit _ job => job
  | .alarming _ module _ _ | .opened _ module _ _ _ | .tagged _ module _ _ _ => .install module

/-- The job is done on a context. -/
def DoneBy : Job → ParserContext ℕ → ParserContext ℕ → Prop
  | .install module, context, context' =>
    ∃ load, updateParser context module load = .ok (true, context')
  | .remove module, context, context' => context' = context.erase module.id
  | .clear, context, context' => context' = context.clear

/-- A context that the call is not done with. -/
def current (main : UpdatePc) (old : ℕ → ParserContext ℕ) (j : ℕ) : Expect :=
  if lockOf main = some j then stage (old j) main else full (old j)

/-- An event that asks for the job. -/
def Asked (dir : Bytes) (e : IncomingEvent) (job : Job) : Prop := e.type = .parser ∧ Asks dir e job

/-- What is known of the call by where it is. -/
def Facts (dir : Bytes) : UpdatePc → Prop
  | .idle => True
  | .next e job _ | .inside e job _ | .commit e job | .leave e job _ true => Asked dir e job
  | .opened e module tag object _ | .tagged e module tag object _ => Asked dir e (.install module) ∧
      protocolTag module.config = .ok tag ∧
      ∃ load, parserHandleFactory module load = .ok (some object)
  | .alarming e module tag _ => Asked dir e (.install module) ∧
      protocolTag module.config = .ok tag ∧
      ∃ load, parserHandleFactory module (load : LoadOutcome ℕ) = .ok none
  | .erased e job _ => Asked dir e job ∧ ∀ module, job ≠ .install module
  | .leave e job _ false => Asked dir e job ∧ ∃ module tag load, job = .install module ∧
      protocolTag module.config = .ok tag ∧
      parserHandleFactory module (load : LoadOutcome ℕ) = .ok none

/-- The contexts are where the call has brought them, by what they were before it. -/
structure Tracks (dir : Bytes) (n : ℕ) (s : Shared) (old : ℕ → ParserContext ℕ) : Prop where
  facts : Facts dir s.main
  bound : ∀ i, lockOf s.main = some i → i < n
  contexts : ∃ done : ℕ → ParserContext ℕ,
    (∀ j < place n s.main, DoneBy (jobOf s.main) (old j) (done j) ∧
      (j < n → Meets (s.contexts j) (full (done j)))) ∧
    ∀ j < n, place n s.main ≤ j → Meets (s.contexts j) (current s.main old j)

end Expectation

section Silent

variable {old : ℕ → ParserContext ℕ}

theorem SameTags.refl (tags : Std.ExtTreeMap UInt64 ProtocolTag) : SameTags tags tags :=
  fun _ => rfl

/-- A context with the tables of another, but for the counters. -/
theorem meets_full_iff {context' : ParserContext ℕ} : Meets context (full context') ↔
    context.handles = context'.handles ∧ SameTags context.tags context'.tags :=
  ⟨fun h => ⟨h.handles _ rfl, h.tags _ rfl⟩,
    fun h => ⟨by simpa [full] using h.1, by simpa [full] using h.2⟩⟩

/-- A step that leaves the call where it is, or brings it on within a context. -/
theorem Tracks.mono (h : Tracks dir n s old) (hfacts : Facts dir s'.main)
    (hbound : ∀ i, lockOf s'.main = some i → i < n)
    (hjob : 0 < place n s.main → jobOf s'.main = jobOf s.main)
    (hplace : place n s'.main = place n s.main)
    (hbefore : ∀ j < place n s.main, ∀ expect, Meets (s.contexts j) expect →
      Meets (s'.contexts j) expect)
    (hafter : ∀ j, place n s.main ≤ j → Meets (s.contexts j) (current s.main old j) →
      Meets (s'.contexts j) (current s'.main old j)) : Tracks dir n s' old := by
  obtain ⟨-, -, done, hdone, hrest⟩ := h
  refine ⟨hfacts, hbound, done, fun j hj => ?_, fun j hj hge => ?_⟩
  · rw [hplace] at hj
    rw [hjob (Nat.zero_lt_of_lt hj)]
    exact ⟨(hdone j hj).1, fun hjn => hbefore j hj _ ((hdone j hj).2 hjn)⟩
  · rw [hplace] at hge
    exact hafter j hge (hrest j hj hge)

/-- A step that finishes a context. -/
theorem Tracks.advance {pc pc' : UpdatePc} (h : Tracks dir n s old) (hmain : s.main = pc)
    (hmain' : s'.main = pc') (hfacts : Facts dir pc') (hlock : lockOf pc = some i)
    (hlock' : lockOf pc' = some i) (hjob : jobOf pc' = jobOf pc) (hplace : place n pc = i)
    (hplace' : place n pc' = i + 1) (hother : ∀ j, j ≠ i → s'.contexts j = s.contexts j)
    (hdone : DoneBy (jobOf pc) (old i) context)
    (hmeets : Meets (s.contexts i) (stage (old i) pc) → Meets (s'.contexts i) (full context)) :
    Tracks dir n s' old := by
  subst hmain hmain'
  obtain ⟨-, hbound, done, hall, hrest⟩ := h
  have hi := hbound i hlock
  have hcurrent : ∀ main, lockOf main = some i → ∀ j, j ≠ i →
      current main old j = full (old j) := by
    intro main hmain j hj
    rw [current, if_neg]
    rw [hmain]
    exact fun heq => hj (Option.some.inj heq).symm
  refine ⟨hfacts, fun j hj => ?_, Function.update done i context, fun j hj => ?_,
    fun j hj hge => ?_⟩
  · rw [hlock'] at hj
    exact Option.some.inj hj ▸ hi
  · rw [hplace'] at hj
    rw [hjob]
    by_cases hji : j = i
    · subst hji
      rw [Function.update_self]
      refine ⟨hdone, fun _ => hmeets ?_⟩
      have hbefore := hrest j hi hplace.le
      rwa [current, if_pos hlock] at hbefore
    · rw [Function.update_of_ne hji, hother j hji]
      exact hall j (by omega)
  · rw [hplace'] at hge
    have hji : j ≠ i := by omega
    rw [hother j hji, hcurrent s'.main hlock' j hji]
    have hbefore := hrest j hj (by omega)
    rwa [hcurrent s.main hlock j hji] at hbefore

/-- A change of the counters is none. -/
theorem SameTags.insert_reset {id : UInt64} {tag' : ProtocolTag} (htag : tags[id]? = some tag)
    (hreset : tag'.reset = tag.reset) : SameTags (tags.insert id tag') tags := by
  intro id'
  by_cases hid : id' = id
  · subst hid
    simp [htag, hreset]
  · simp [Std.ExtTreeMap.getElem?_insert, Ne.symm hid]

/-- The same tag is set. -/
theorem SameTags.insert {tags' : Std.ExtTreeMap UInt64 ProtocolTag} (h : SameTags tags tags')
    (id : UInt64) (tag : ProtocolTag) : SameTags (tags.insert id tag) (tags'.insert id tag) := by
  intro id'
  by_cases hid : id' = id
  · subst hid
    simp
  · simpa [Std.ExtTreeMap.getElem?_insert, Ne.symm hid] using h id'

/-- The same tag is erased. -/
theorem SameTags.erase {tags' : Std.ExtTreeMap UInt64 ProtocolTag} (h : SameTags tags tags')
    (id : UInt64) : SameTags (tags.erase id) (tags'.erase id) := by
  intro id'
  by_cases hid : id' = id
  · subst hid
    simp
  · simpa [Std.ExtTreeMap.getElem?_erase, Ne.symm hid] using h id'

/-- A context that keeps its handles and its tags but for the counters. -/
theorem Meets.of_same {context' : ParserContext ℕ} {expect : Expect} (h : Meets context expect)
    (hhandles : context'.handles = context.handles) (htags : SameTags context'.tags context.tags) :
    Meets context' expect where
  handles handles hsome := hhandles.trans (h.handles handles hsome)
  tags tags hsome id := (htags id).trans (h.tags tags hsome id)

/-- The alarm of a module that does not open leaves the tags. -/
theorem openFailed_tags (context : ParserContext ℕ) (module : ModuleConfig) (tag : ProtocolTag) :
    (context.openFailed module tag).tags = context.tags := by
  unfold ParserContext.openFailed
  split <;> rfl

/-- Reports and the accounting change counters only. -/
theorem UseMove.meets {p : ℕ} (hmove : UseMove s p event s') (j : ℕ) {expect : Expect}
    (h : Meets (s.contexts j) expect) : Meets (s'.contexts j) expect := by
  have hupdate : ∀ context, context.handles = (s.contexts p).handles →
      SameTags context.tags (s.contexts p).tags →
      Meets (Function.update s.contexts p context j) expect := by
    intro context hhandles htags
    by_cases hj : j = p
    · subst hj
      rw [Function.update_self]
      exact h.of_same hhandles htags
    · rwa [Function.update_of_ne hj]
  cases hmove with
  | reports hpc =>
    apply hupdate _ (reportTag_handles ..)
    unfold ParserContext.reportTag
    split
    next => exact .refl _
    next tag htag => exact .insert_reset htag rfl
  | accounts hpc =>
    apply hupdate _ (account_handles ..)
    unfold ParserContext.account
    split
    next => exact .refl _
    next tag htag =>
      split
      next => exact .insert_reset htag rfl
      next => exact .refl _
  | _ => exact h

/-- The steps of a parser thread leave the call where it is. -/
theorem UseMove.tracks {p : ℕ} (hmove : UseMove s p event s') (h : Tracks dir n s old) :
    Tracks dir n s' old := by
  have hmain := hmove.main_eq
  apply h.mono
  · exact hmain ▸ h.facts
  · exact hmain ▸ h.bound
  · exact fun _ => by rw [hmain]
  · rw [hmain]
  · exact fun j _ expect hmeets => hmove.meets j hmeets
  · intro j _ hmeets
    rw [hmain]
    exact hmove.meets j hmeets

/-- What a step shows of the calls: the end of one. -/
def observe : HandleEvent → Option (Option IncomingEvent)
  | .handled received => some received
  | _ => none

/-- A step of the call within the context that it has locked. -/
theorem Tracks.inside {pc pc' : UpdatePc} (h : Tracks dir n s old) (hmain : s.main = pc)
    (hmain' : s'.main = pc') (hfacts : Facts dir pc') (hlock : lockOf pc = some i)
    (hlock' : lockOf pc' = some i) (hjob : jobOf pc' = jobOf pc) (hplace : place n pc = i)
    (hplace' : place n pc' = i) (hcontexts : s'.contexts = Function.update s.contexts i context)
    (hmeets : Meets (s.contexts i) (stage (old i) pc) → Meets context (stage (old i) pc')) :
    Tracks dir n s' old := by
  subst hmain hmain'
  apply h.mono hfacts
  · rw [hlock', ← hlock]
    exact h.bound
  · exact fun _ => hjob
  · rw [hplace, hplace']
  · intro j hj expect hold
    rw [hcontexts, Function.update_of_ne (by omega)]
    exact hold
  · intro j hj hold
    rw [current] at hold ⊢
    rw [hlock] at hold
    rw [hlock', hcontexts]
    by_cases hji : j = i
    · subst hji
      rw [if_pos rfl] at hold ⊢
      rw [Function.update_self]
      exact hmeets hold
    · have hne : some i ≠ some j := fun heq => hji (Option.some.inj heq).symm
      rw [if_neg hne] at hold ⊢
      rwa [Function.update_of_ne hji]

/-- A handle that is closed leaves the contexts. -/
theorem close_contexts {object : Option ℕ} (h : (event, s') = s.close object) :
    s'.contexts = s.contexts := by
  rw [close_eq h]

/-- A handle that is closed leaves the main thread where it is. -/
theorem close_main {object : Option ℕ} (h : (event, s') = s.close object) : s'.main = s.main := by
  rw [close_eq h]

/-- `UpdateParser` where the module opens. -/
theorem updateParser_install {module : ModuleConfig} {object : ℕ}
    (htag : protocolTag module.config = .ok tag)
    (hfactory : parserHandleFactory module load = .ok (some object)) :
    updateParser context module load = .ok (true, context.install module tag object) := by
  simp only [updateParser, htag, hfactory]
  rfl

/-- `UpdateParser` where the module does not open. -/
theorem updateParser_openFailed {module : ModuleConfig} (htag : protocolTag module.config = .ok tag)
    (hfactory : parserHandleFactory module load = .ok none) :
    updateParser context module load = .ok (false, context.openFailed module tag) := by
  simp only [updateParser, htag, hfactory]
  rfl

/-- A step of the main thread before the call ends. -/
theorem MainMove.tracks (hmove : MainMove dir n s event s') (hsilent : observe event = none)
    (h : Tracks dir n s old) : Tracks dir n s' old := by
  have hfacts {main : UpdatePc} (hmain : s.main = main) : Facts dir main := hmain ▸ h.facts
  cases hmove with
  | ignored | givesUp | commits => cases hsilent
  | receives hmain htype hasks =>
    apply h.mono
    · exact ⟨htype, hasks⟩
    · simp [lockOf]
    · simp [hmain, place]
    · simp [hmain, place]
    · exact fun _ _ _ hmeets => hmeets
    · intro j _ hmeets
      simpa [current, hmain, lockOf] using hmeets
  | @locks e job i hmain hlt hfree =>
    have hasked := hfacts hmain
    apply h.mono
    · exact hasked
    · simpa [lockOf] using hlt
    · simp [hmain, jobOf]
    · simp [hmain, place]
    · exact fun _ _ _ hmeets => hmeets
    · intro j _ hmeets
      rw [current, hmain, if_neg (by simp [lockOf])] at hmeets
      by_cases hji : j = i
      · subst hji
        cases job with
        | clear => exact ⟨by simp [current, lockOf, stage], by simp [current, lockOf, stage]⟩
        | _ => simpa [current, lockOf, stage, setLock] using hmeets
      · simpa [current, lockOf, Ne.symm hji, setLock] using hmeets
  | @finishes e job i hmain hge =>
    have hasked := hfacts hmain
    obtain ⟨-, -, done, hdone, -⟩ := h
    rw [hmain] at hdone
    refine ⟨hasked, by simp [lockOf], done, fun j hj => hdone j (hj.trans_le hge),
      fun j hj hle => ?_⟩
    exact absurd hj (not_lt.mpr hle)
  | @fails e module i tag load hmain htag hfactory
  | @opens e module i tag load hmain htag hfactory =>
    exact h.inside hmain rfl ⟨hfacts hmain, htag, load, hfactory⟩ rfl rfl rfl rfl rfl
      (Function.update_eq_self i s.contexts).symm id
  | waits hmain => exact h
  | @alarms e module tag i hmain =>
    obtain ⟨hasked, htag, load, hfactory⟩ := hfacts hmain
    refine h.inside hmain rfl ⟨hasked, module, tag, load, rfl, htag, hfactory⟩ rfl rfl rfl rfl
      rfl rfl fun hmeets => hmeets.of_same (openFailed_handles ..) ?_
    rw [openFailed_tags]
    exact .refl _
  | @tags e module tag object i hmain =>
    have hopened := hfacts hmain
    refine h.inside hmain rfl hopened rfl rfl rfl rfl rfl rfl fun hmeets => ⟨hmeets.handles, ?_⟩
    simp only [stage, Option.some.injEq, forall_eq']
    exact (hmeets.tags _ rfl).insert module.id tag
  | @installs e module tag object i event s' hmain hclose =>
    obtain ⟨hasked, htag, load, hfactory⟩ := hfacts hmain
    have hcontexts := close_contexts hclose
    refine h.advance hmain (close_main hclose) hasked rfl rfl rfl rfl rfl
      (fun j hj => by rw [hcontexts]; exact Function.update_of_ne hj ..)
      ⟨load, updateParser_install htag hfactory⟩ fun hmeets => ?_
    have hself : s'.contexts i = { s.contexts i with
        handles := (s.contexts i).handles.insert module.id object } := by
      rw [hcontexts]
      exact Function.update_self ..
    rw [hself, meets_full_iff]
    refine ⟨?_, hmeets.tags _ rfl⟩
    simp [ParserContext.install, hmeets.handles _ rfl]
  | @removes e module i event s' hmain hclose =>
    refine h.inside hmain (close_main hclose) ⟨hfacts hmain, by simp⟩ rfl rfl rfl rfl rfl
      (close_contexts hclose) fun hmeets => ⟨?_, hmeets.tags⟩
    simp [stage, hmeets.handles _ rfl]
  | @clears e i object id hmain hobject =>
    exact h.inside hmain hmain (hfacts hmain) rfl rfl rfl rfl rfl rfl fun hmeets =>
      ⟨by simp [stage], by simp [stage]⟩
  | @cleared e i hmain hempty =>
    refine h.inside hmain rfl ⟨hfacts hmain, by simp⟩ rfl rfl rfl rfl rfl
      (Function.update_eq_self i s.contexts).symm fun hmeets => ⟨?_, by simp [stage]⟩
    simpa [stage] using Std.ExtTreeMap.isEmpty_iff.mp hempty
  | @untags e module i hmain =>
    refine h.advance hmain rfl (hfacts hmain).1 rfl rfl rfl rfl rfl
      (fun j hj => Function.update_of_ne hj ..) rfl fun hmeets => ?_
    simp only [setContext, Function.update_self]
    exact meets_full_iff.mpr ⟨hmeets.handles _ rfl, (hmeets.tags _ rfl).erase module.id⟩
  | @untagsAll e job i hmain hjob =>
    obtain rfl : job = .clear := by
      cases job with
      | install module => exact absurd rfl ((hfacts hmain).2 module)
      | remove module => exact absurd rfl (hjob module)
      | clear => rfl
    refine h.advance hmain rfl (hfacts hmain).1 rfl rfl rfl rfl rfl
      (fun j hj => Function.update_of_ne hj ..) rfl fun hmeets => ?_
    simp only [setContext, Function.update_self]
    exact meets_full_iff.mpr ⟨hmeets.handles _ rfl, .refl _⟩
  | @unlocks e job i hmain =>
    have hasked := hfacts hmain
    apply h.mono
    · exact hasked
    · simp [lockOf]
    · simp [hmain, jobOf]
    · simp [hmain, place]
    · exact fun _ _ _ hmeets => hmeets
    · intro j hj hmeets
      have hji : i ≠ j := by
        simp [hmain, place] at hj
        omega
      simpa [current, hmain, lockOf, hji, setLock] using hmeets

end Silent

section Returns

variable {old done : ℕ → ParserContext ℕ} {module : ModuleConfig} {loads : ℕ → LoadOutcome ℕ}

/-- The loop over the contexts where the module opens in all of them. -/
theorem updateContexts_done (contexts : List (ParserContext ℕ)) (k : ℕ)
    (h : ∀ j context, contexts[j]? = some context →
      updateParser context module (loads (k + j)) = .ok (true, done (k + j))) :
    updateContexts module loads k contexts =
      .ok (true, (List.range' k contexts.length).map done) := by
  induction contexts generalizing k with
  | nil => rfl
  | cons context rest ih =>
    have hfirst := h 0 context rfl
    have hrest := ih (k + 1) fun j context' hj => by
      have hnext := h (j + 1) context' hj
      rwa [← Nat.add_assoc, Nat.add_right_comm] at hnext
    rw [Nat.add_zero] at hfirst
    simp only [updateContexts, hfirst, hrest]
    rfl

/-- The loop over the contexts where the module opens in the first ones only. -/
theorem updateContexts_fails {failed : ParserContext ℕ} (contexts : List (ParserContext ℕ))
    (k i : ℕ) (hi : i < contexts.length)
    (h : ∀ j context, j < i → contexts[j]? = some context →
      updateParser context module (loads (k + j)) = .ok (true, done (k + j)))
    (hfails : ∀ context, contexts[i]? = some context →
      updateParser context module (loads (k + i)) = .ok (false, failed)) :
    updateContexts module loads k contexts =
      .ok (false, (List.range' k i).map done ++ failed :: contexts.drop (i + 1)) := by
  induction contexts generalizing k i with
  | nil => simp at hi
  | cons context rest ih =>
    cases i with
    | zero =>
      have hfirst := hfails context rfl
      rw [Nat.add_zero] at hfirst
      simp only [updateContexts, hfirst]
      rfl
    | succ i =>
      have hfirst := h 0 context (Nat.succ_pos i) rfl
      have hrest := ih (k + 1) i (by simpa using hi)
        (fun j context' hj hcontext => by
          have hnext := h (j + 1) context' (by omega) hcontext
          rwa [← Nat.add_assoc, Nat.add_right_comm] at hnext)
        (fun context' hcontext => by
          have hnext := hfails context' hcontext
          rwa [← Nat.add_assoc, Nat.add_right_comm] at hnext)
      rw [Nat.add_zero] at hfirst
      simp only [updateContexts, hfirst, hrest]
      rfl

/-- A context of the sequential process. -/
def contextAt (a : Runtime ℕ) (j : ℕ) : ParserContext ℕ := a.contexts.getD j (.new j 0)

/-- The sequential process: calls of `HandleInputEvent` one after the other. -/
def Sequential (dir : Bytes) (a : Runtime ℕ) (received : Option IncomingEvent) (a' : Runtime ℕ) :
    Prop :=
  ∃ loads, EventStep dir a ⟨received, loads⟩ a'

/-- The process corresponds to the sequential one, in which the current call has not begun. -/
structure Refines (dir : Bytes) (n : ℕ) (s : Shared) (a : Runtime ℕ) : Prop where
  length : a.contexts.length = n
  config : a.config = s.config
  written : a.written = s.written
  tracks : Tracks dir n s (contextAt a)

/-- Between two calls the contexts have the same tables. -/
theorem tracks_idle (hmain : s.main = .idle)
    (h : ∀ j < n, Meets (s.contexts j) (full (old j))) : Tracks dir n s old where
  facts := by rw [hmain]; trivial
  bound := by simp [hmain, lockOf]
  contexts := ⟨old, by simp [hmain, place],
    fun j hj _ => by simpa [current, hmain, lockOf] using h j hj⟩

/-- Where nothing is asked for, a call changes nothing. -/
theorem eventStep_inert {received : Option IncomingEvent} (h : Inert received) (a : Runtime ℕ)
    (loads : ℕ → LoadOutcome ℕ) : EventStep dir a ⟨received, loads⟩ a := by
  unfold EventStep handleInputEvent
  cases received with
  | none => rfl
  | some e =>
    dsimp only
    split
    next htype =>
      obtain ⟨subtype, hsubtype⟩ := h htype
      simp only [Runtime.dispatch, hsubtype]
      rfl
    next => rfl

/-- A context that the sequential process has. -/
theorem contextAt_of_getElem? {j : ℕ} (h : a.contexts[j]? = some context) :
    contextAt a j = context := by
  simp [contextAt, List.getD, h]

/-- The contexts after a function was applied to all of them. -/
theorem map_contexts (f : ParserContext ℕ → ParserContext ℕ)
    (h : ∀ j < a.contexts.length, done j = f (contextAt a j)) :
    a.contexts.map f = (List.range' 0 a.contexts.length).map done := by
  apply List.ext_getElem?
  intro j
  by_cases hj : j < a.contexts.length
  · have hcontext : a.contexts[j]? = some a.contexts[j] := List.getElem?_eq_getElem hj
    simp [hj, h j hj, contextAt_of_getElem? hcontext]
  · simp [hj]

/-- A call that gets through all contexts. -/
theorem eventStep_commit {e : IncomingEvent} {job : Job} (hasked : Asked dir e job)
    (hdone : ∀ j < a.contexts.length, DoneBy job (contextAt a j) (done j)) :
    ∃ a', Sequential dir a (some e) a' ∧
      a'.contexts = (List.range' 0 a.contexts.length).map done ∧
      a'.config = commitJob a.config job ∧ a'.written = commitJob a.config job := by
  obtain ⟨htype, hasks⟩ := hasked
  cases hasks with
  | @install module hsubtype hmodule =>
    -- the answers of the loader, context by context
    have hload : ∀ j, ∃ load, j < a.contexts.length →
        updateParser (contextAt a j) module load = .ok (true, done j) := by
      intro j
      by_cases hj : j < a.contexts.length
      · obtain ⟨load, hload⟩ := hdone j hj
        exact ⟨load, fun _ => hload⟩
      · exact ⟨.dlopenFailed, fun hj' => absurd hj' hj⟩
    choose loads hloads using hload
    have hloop : updateContexts module loads 0 a.contexts =
        .ok (true, (List.range' 0 a.contexts.length).map done) := by
      apply updateContexts_done
      intro j context hcontext
      have hj : j < a.contexts.length := (List.getElem?_eq_some_iff.mp hcontext).1
      rw [Nat.zero_add, ← contextAt_of_getElem? hcontext]
      exact hloads j hj
    have hadds : AddsModule dir (⟨some e, loads⟩ : Input ℕ) module :=
      ⟨e, rfl, htype, hsubtype, hmodule⟩
    have hcall : handleInputEvent dir a ⟨some e, loads⟩ =
        .ok ({ a with contexts := (List.range' 0 a.contexts.length).map done }.commit
          (a.modules.insert module.name module)) := by
      rw [hadds.handleInputEvent_eq, Runtime.install, hloop]
      rfl
    exact ⟨_, ⟨loads, hcall⟩, rfl, rfl, rfl⟩
  | @remove module hsubtype hmodule =>
    have hremoves : RemovesModule dir (⟨some e, fun _ => .dlopenFailed⟩ : Input ℕ) module :=
      ⟨e, rfl, htype, hsubtype, hmodule⟩
    exact ⟨_, ⟨_, hremoves.handleInputEvent_eq⟩, map_contexts _ hdone, rfl, rfl⟩
  | clear hsubtype =>
    have hcall : handleInputEvent dir a ⟨some e, fun _ => .dlopenFailed⟩ = .ok a.clear := by
      simp only [handleInputEvent, htype, if_true, Runtime.dispatch, hsubtype]
      rfl
    exact ⟨_, ⟨_, hcall⟩, map_contexts _ hdone, rfl, rfl⟩

/-- A call that ends at a context where the module does not open. -/
theorem eventStep_givesUp {e : IncomingEvent} (hasked : Asked dir e (.install module))
    (hi : i < a.contexts.length) (htag : protocolTag module.config = .ok tag)
    (hfactory : parserHandleFactory module load = .ok none)
    (hdone : ∀ j < i, DoneBy (.install module) (contextAt a j) (done j)) :
    ∃ a', Sequential dir a (some e) a' ∧
      a'.contexts = (List.range' 0 i).map done ++
        (contextAt a i).openFailed module tag :: a.contexts.drop (i + 1) ∧
      a'.config = a.config ∧ a'.written = a.written := by
  obtain ⟨htype, hasks⟩ := hasked
  cases hasks with
  | install hsubtype hmodule =>
    have hload : ∀ j, ∃ load', (j < i →
        updateParser (contextAt a j) module load' = .ok (true, done j)) ∧
          (j = i → load' = load) := by
      intro j
      by_cases hj : j < i
      · obtain ⟨load', hload'⟩ := hdone j hj
        exact ⟨load', fun _ => hload', fun hji => absurd hj (by omega)⟩
      · exact ⟨load, fun hj' => absurd hj' hj, fun _ => rfl⟩
    choose loads hloads using hload
    have hloop : updateContexts module loads 0 a.contexts =
        .ok (false, (List.range' 0 i).map done ++
          (contextAt a i).openFailed module tag :: a.contexts.drop (i + 1)) := by
      apply updateContexts_fails a.contexts 0 i hi
      · intro j context hj hcontext
        rw [Nat.zero_add, ← contextAt_of_getElem? hcontext]
        exact (hloads j).1 hj
      · intro context hcontext
        rw [Nat.zero_add, (hloads i).2 rfl, ← contextAt_of_getElem? hcontext]
        exact updateParser_openFailed htag hfactory
    have hadds : AddsModule dir (⟨some e, loads⟩ : Input ℕ) module :=
      ⟨e, rfl, htype, hsubtype, hmodule⟩
    have hcall : handleInputEvent dir a ⟨some e, loads⟩ =
        .ok { a with contexts := (List.range' 0 i).map done ++
          (contextAt a i).openFailed module tag :: a.contexts.drop (i + 1) } := by
      rw [hadds.handleInputEvent_eq, Runtime.install, hloop]
      rfl
    exact ⟨_, ⟨loads, hcall⟩, rfl, rfl, rfl⟩

/-- The contexts after a call that ends at a context where the module does not open. -/
theorem contextAt_givesUp {a' : Runtime ℕ} {failed : ParserContext ℕ}
    (hcontexts : a'.contexts = (List.range' 0 i).map done ++ failed :: a.contexts.drop (i + 1))
    (j : ℕ) :
    contextAt a' j = if j < i then done j else if j = i then failed else contextAt a j := by
  unfold contextAt
  rw [hcontexts, List.getD, List.getElem?_append]
  simp only [List.length_map, List.length_range']
  split
  next hlt => simp [hlt]
  next hge =>
    split
    next hji => simp [hji]
    next hji =>
      obtain ⟨k, rfl⟩ : ∃ k, j = i + 1 + k := ⟨j - (i + 1), by omega⟩
      have hk : i + 1 + k - i = k + 1 := by omega
      rw [hk, List.getElem?_cons_succ, List.getElem?_drop, List.getD]

/-- The end of a call is a call of the sequential process. -/
theorem MainMove.refines {received : Option IncomingEvent} (hmove : MainMove dir n s event s')
    (hvisible : observe event = some received) (h : Refines dir n s a) :
    ∃ a', Sequential dir a received a' ∧ Refines dir n s' a' := by
  obtain ⟨hlength, hconfig, hwritten, htracks⟩ := h
  cases hmove with
  | ignored hmain hinert =>
    cases hvisible
    exact ⟨a, ⟨fun _ => .dlopenFailed, eventStep_inert hinert a _⟩,
      hlength, hconfig, hwritten, htracks⟩
  | @commits e job hmain =>
    cases hvisible
    obtain ⟨hfacts, -, done, hdone, -⟩ := htracks
    rw [hmain] at hfacts hdone
    subst hlength
    obtain ⟨a', hcall, hcontexts, hconfig', hwritten'⟩ :=
      eventStep_commit hfacts fun j hj => (hdone j hj).1
    refine ⟨a', hcall, ?_, ?_, ?_, tracks_idle rfl fun j hj => ?_⟩
    · simp [hcontexts]
    · rw [hconfig', hconfig]
    · rw [hwritten', hconfig]
    · have hat : contextAt a' j = done j := by simp [contextAt, hcontexts, List.getD, hj]
      rw [hat]
      exact (hdone j hj).2 hj
  | @givesUp e job i hmain =>
    cases hvisible
    obtain ⟨hfacts, hbound, done, hdone, hrest⟩ := htracks
    rw [hmain] at hfacts hdone hrest
    obtain ⟨hasked, module, tag, load, rfl, htag, hfactory⟩ := hfacts
    have hi : i < n := hbound i (by rw [hmain]; rfl)
    subst hlength
    obtain ⟨a', hcall, hcontexts, hconfig', hwritten'⟩ :=
      eventStep_givesUp hasked hi htag hfactory fun j hj => (hdone j hj).1
    refine ⟨a', hcall, ?_, hconfig'.trans hconfig, hwritten'.trans hwritten, tracks_idle rfl ?_⟩
    · simp [hcontexts]
      omega
    · intro j hj
      rw [contextAt_givesUp hcontexts]
      split
      next hlt => exact (hdone j hlt).2 hj
      next hge =>
        have hmeets := hrest j hj (not_lt.mp hge)
        split
        next hji =>
          subst hji
          have hsame : full ((contextAt a j).openFailed module tag) = full (contextAt a j) := by
            simp [full, openFailed_handles, openFailed_tags]
          rw [hsame]
          simpa [current, lockOf, stage, setLock] using hmeets
        next hji => simpa [current, lockOf, Ne.symm hji, setLock] using hmeets
  | installs hmain hclose | removes hmain hclose =>
    obtain ⟨-, rfl, -⟩ | ⟨x, -, rfl, -⟩ := close_cases hclose <;> cases hvisible
  | _ => cases hvisible

/-- Before the call ends the configuration stays. -/
theorem MainMove.config_eq (hmove : MainMove dir n s event s') (hsilent : observe event = none) :
    s'.config = s.config ∧ s'.written = s.written := by
  cases hmove with
  | commits hmain => cases hsilent
  | installs hmain hclose | removes hmain hclose =>
    rw [close_eq hclose]
    exact ⟨rfl, rfl⟩
  | _ => exact ⟨rfl, rfl⟩

/-- Before the call ends the sequential process waits. -/
theorem Move.refines_silent (hmove : Move dir n s event s') (hsilent : observe event = none)
    (h : Refines dir n s a) : Refines dir n s' a := by
  obtain ⟨hlength, hconfig, hwritten, htracks⟩ := h
  cases hmove with
  | fault => exact ⟨hlength, hconfig, hwritten, htracks.facts, htracks.bound, htracks.contexts⟩
  | main hmove =>
    obtain ⟨hconfig', hwritten'⟩ := hmove.config_eq hsilent
    exact ⟨hlength, hconfig.trans hconfig'.symm, hwritten.trans hwritten'.symm,
      hmove.tracks hsilent htracks⟩
  | parser hlt hmove =>
    have hkeep : s'.config = s.config ∧ s'.written = s.written := by
      cases hmove <;> exact ⟨rfl, rfl⟩
    exact ⟨hlength, hconfig.trans hkeep.1.symm, hwritten.trans hkeep.2.symm, hmove.tracks htracks⟩

/-- The call has returned. -/
def isIdle : UpdatePc → Bool
  | .idle => true
  | _ => false

/-- The sequential process at the start. -/
def runtime (s : Shared) (n : ℕ) : Runtime ℕ where
  contexts := (List.range' 0 n).map s.contexts
  config := s.config
  written := s.written

/-- However the parser threads interleave with it, the main thread leaves what sequential calls of
`HandleInputEvent` on the same events leave: the handles and, but for the counters, the tags of
every context, the configuration and what was written. -/
theorem handleInputEvent_refines {s₀ : Shared} (hready : Ready s₀)
    (hrun : Run (Step dir n) s₀ labels s) (hmain : s.main = .idle) :
    ∃ a, Run (Sequential dir) (s₀.runtime n) (labels.filterMap observe) a ∧
      a.config = s.config ∧ a.written = s.written ∧ a.contexts.length = n ∧
      ∀ i < n, (s.contexts i).handles = (contextAt a i).handles ∧
        SameTags (s.contexts i).tags (contextAt a i).tags := by
  have hsimulation : ∃ a, Run (Sequential dir) (s₀.runtime n) (labels.filterMap observe) a ∧
      Refines dir n s a := by
    refine hrun.simulation observe (R := fun _ s a => Refines dir n s a) ?_ ?_ ?_
    · refine ⟨by simp [runtime], rfl, rfl, tracks_idle hready.main fun j hj => ?_⟩
      have hat : contextAt (s₀.runtime n) j = s₀.contexts j := by
        simp [contextAt, runtime, List.getD, hj]
      rw [hat]
      exact meets_full_iff.mpr ⟨rfl, .refl _⟩
    · intro labels s a event s' h hstep hsilent
      exact hstep.move.2.refines_silent hsilent h
    · intro labels s a event s' received h hstep hvisible
      cases hstep.move.2 with
      | fault => cases hvisible
      | main hmove => exact hmove.refines hvisible h
      | parser hlt hmove => cases hmove <;> cases hvisible
  obtain ⟨a, hcalls, hrefines⟩ := hsimulation
  refine ⟨a, hcalls, hrefines.config, hrefines.written, hrefines.length, fun i hi => ?_⟩
  obtain ⟨-, -, done, -, hrest⟩ := hrefines.tracks
  have hmeets := hrest i hi (by simp [hmain, place])
  rw [current, hmain, if_neg (by simp [lockOf])] at hmeets
  exact meets_full_iff.mp hmeets

/-- A parser is added and used, and the contexts are what one call leaves. -/
theorem handleInputEvent_refines_add :
    ∃ labels s a, Run (Step [] 1) noModules labels s ∧ s.main = .idle ∧
      Run (Sequential []) (noModules.runtime 1) (labels.filterMap observe) a ∧
      (s.contexts 0).handles = (contextAt a 0).handles ∧
      (s.contexts 0).handles[(6 : UInt64)]? = some 0 := by
  have hexec : (exec (next [] 1) noModules (usesModule ++ List.replicate 2 useOn)).map
      (fun result => (isIdle result.2.main, (result.2.contexts 0).handles[(6 : UInt64)]?)) =
        some (true, some 0) := by
    decide +kernel
  obtain ⟨labels, s, hrun, hresult⟩ := exists_run_of_exec hexec
  obtain ⟨hidle, hhandle⟩ := Prod.mk.inj hresult
  have hmain : s.main = .idle := by
    cases hmain : s.main <;> simp_all [isIdle]
  obtain ⟨a, hcalls, -, -, -, hcontexts⟩ := handleInputEvent_refines noModules_ready hrun hmain
  exact ⟨labels, s, a, hrun, hmain, hcalls, (hcontexts 0 Nat.one_pos).1, hhandle⟩

end Returns

end Shared

end Demos.Oak
