import Singletons.Proofs.Session.Execution
import Singletons.Proofs.Session.Life
import Singletons.Proofs.Teardown.Dismantling
/-!
# Release callbacks that leave the registry alone

A callback that does not reach back into the registry may do what it likes otherwise, and end as it
likes: the teardown goes on from the same registry, but for the failure that it may record.
-/

namespace Singletons

/-- Whether an operation does not concern the registry. -/
def Operation.isAside : Operation → Bool
  | registry _ => false
  | part _ => false
  | log _ => true
  | router _ => true

abbrev Program.Quiet (p : Program) : Prop := p.Only (·.isAside)

/-- No release callback that is bound reaches back into the registry. -/
def Environment.Quiet (env : Environment) (r : Registry) : Prop :=
  ∀ n id, r.disposables.handle? n = some (.callback id) → ∀ k, (env.body id k).Quiet

namespace Event

def release? : Event → Option (Name × Handle)
  | released n handle => some (n, handle)
  | _ => none

/-- The release callback whose program begins, and the name that it is called for. -/
def call? : Event → Option (Name × CallbackId)
  | entered id _ (.releasing n _) => some (n, id)
  | _ => none

/-- How a callback has ended. -/
def ending? : Event → Option (Except Thrown Returned)
  | left _ _ ended => some ended
  | _ => none

/-- Just these handles are released, and just the callbacks among them are called. -/
def Releases (events : List Event) (released : List (Name × Handle)) : Prop :=
  events.filterMap release? = released ∧ events.filterMap call? = Handle.callsIn released

theorem Releases.append {es fs : List Event} {rs ss : List (Name × Handle)}
    (he : Releases es rs) (hf : Releases fs ss) : Releases (es ++ fs) (rs ++ ss) := by
  refine ⟨?_, ?_⟩
  · rw [List.filterMap_append, he.1, hf.1]
  · rw [List.filterMap_append, he.2, hf.2, Handle.callsIn, Handle.callsIn, Handle.callsIn,
      List.filterMap_append]

theorem Releases.cons {e : Event} {es : List Event} {rs : List (Name × Handle)}
    (hr : e.release? = none) (hc : e.call? = none) (he : Releases es rs) :
    Releases (e :: es) rs := by
  refine ⟨?_, ?_⟩
  · rw [List.filterMap_cons_none hr, he.1]
  · rw [List.filterMap_cons_none hc, he.2]

theorem releases_delivered (ds : List Logging.Delivery) : Releases (ds.map .delivered) [] := by
  induction ds with
  | nil => exact ⟨rfl, rfl⟩
  | cons d ds ih => exact .cons rfl rfl ih

theorem endings_delivered (ds : List Logging.Delivery) :
    (ds.map delivered).filterMap ending? = [] := by
  induction ds with
  | nil => rfl
  | cons d ds ih => exact ih

end Event

namespace World

theorem note_events (w : World) (n : Note) :
    (w.note n).2.filterMap Event.release? = n.release?.toList ∧
      (w.note n).2.filterMap Event.call? = [] := by
  cases n with
  | message tag severity text => exact Event.releases_delivered (w.log.log tag severity text).1
  | released n handle => exact ⟨rfl, rfl⟩

/-- Of what an operation notes, the world records the releases. -/
theorem notes_events (w : World) (ns : List Note) :
    (w.notes ns).2.filterMap Event.release? = ns.filterMap Note.release? ∧
      (w.notes ns).2.filterMap Event.call? = [] := by
  induction ns generalizing w with
  | nil => exact ⟨rfl, rfl⟩
  | cons n ns ih =>
    obtain ⟨first, silent⟩ := w.note_events n
    obtain ⟨releases, calls⟩ := ih (w.note n).1
    have events : (w.notes (n :: ns)).2 = (w.note n).2 ++ ((w.note n).1.notes ns).2 := rfl
    rw [events, List.filterMap_append, List.filterMap_append, first, silent, releases, calls]
    cases hn : n.release? with
    | none => simp [hn]
    | some release => simp [hn]

theorem advance_events (w : World) (a : Advance) :
    (w.advance a).events.filterMap Event.release? = a.notes.filterMap Note.release? ∧
      (w.advance a).events.filterMap Event.call? = [] :=
  notes_events _ a.notes

/-- No callback ends by what an operation notes. -/
theorem notes_endings (w : World) (ns : List Note) :
    (w.notes ns).2.filterMap Event.ending? = [] := by
  induction ns generalizing w with
  | nil => rfl
  | cons n ns ih =>
    have first : (w.note n).2.filterMap Event.ending? = [] := by
      cases n with
      | message tag severity text => exact Event.endings_delivered (w.log.log tag severity text).1
      | released n handle => rfl
    have events : (w.notes (n :: ns)).2 = (w.note n).2 ++ ((w.note n).1.notes ns).2 := rfl
    rw [events, List.filterMap_append, first, ih]
    rfl

theorem advance_endings (w : World) (a : Advance) :
    (w.advance a).events.filterMap Event.ending? = [] :=
  notes_endings _ a.notes

end World

namespace Registry

/-- The same registry, up to the failures of release handles that are recorded. -/
def Alike (r r' : Registry) : Prop := ∃ releaseFaults, r' = { r with releaseFaults }

/-- What a teardown does has nothing to do with the failures recorded before. -/
theorem teardown_alike (r : Registry) (releaseFaults : List Fault) (agenda : Agenda) :
    ({ r with releaseFaults } : Registry).teardown agenda =
      { r.teardown agenda with
        registry := { (r.teardown agenda).registry with releaseFaults } } := by
  unfold teardown
  split
  · rfl
  · rfl
  · split
    · rfl
    · rfl
  · dsimp only
    split
    · rfl
    · rfl
    · rfl
  · rfl
  · rfl
  · rfl

/-- The failures that are recorded when the release callback of a name has ended. -/
def recorded (limit : Nat) (faults : List Fault) (n : Name) (ended : Except Thrown Returned) :
    List Fault :=
  match releaseFailure? ended with
  | none => faults
  | some reason =>
    if faults.length < limit then faults ++ [(Refusal.release reason).fault n] else faults

/-- The failures that are recorded when these callbacks have been called and have ended so. -/
def recordedAll (limit : Nat) (faults : List Fault) (calls : List (Name × CallbackId))
    (endings : List (Except Thrown Returned)) : List Fault :=
  (calls.zip endings).foldl (fun faults call => recorded limit faults call.1.1 call.2) faults

theorem recordedAll_append (limit : Nat) (faults : List Fault)
    {calls : List (Name × CallbackId)} {endings : List (Except Thrown Returned)}
    (same : calls.length = endings.length) (calls' : List (Name × CallbackId))
    (endings' : List (Except Thrown Returned)) :
    recordedAll limit faults (calls ++ calls') (endings ++ endings') =
      recordedAll limit (recordedAll limit faults calls endings) calls' endings' := by
  rw [recordedAll, List.zip_append same, List.foldl_append]
  rfl

/-- The end of a release callback leaves nothing but the failure that it may be. -/
theorem registry_released (r : Registry) (n : Name) (rest : Agenda)
    (ended : Except Thrown Returned) : (r.released n rest ended).registry =
      { r with releaseFaults := recorded r.config.limit r.releaseFaults n ended } := by
  unfold released recorded
  cases releaseFailure? ended with
  | none => rfl
  | some reason =>
    dsimp only
    split <;> rfl

/-- Nothing is released by the end of a release callback. -/
theorem release?_released (r : Registry) (n : Name) (rest : Agenda)
    (ended : Except Thrown Returned) :
    (r.released n rest ended).notes.filterMap Note.release? = [] := by
  unfold released
  split <;> rfl

end Registry

namespace Dismantling

/-- No callback that is bound or that is about to be called reaches back into the registry. -/
structure Quiet (env : Environment) (d : Dismantling) : Prop where
  bound : env.Quiet d.registry
  pending : ∀ n id, .release n (.callback id) ∈ d.items → ∀ k, (env.body id k).Quiet

theorem Quiet.step {env : Environment} {d e : Dismantling} (hd : d.Quiet env) (h : Step d e) :
    e.Quiet env := by
  obtain ⟨bound, pending⟩ := hd
  cases h with
  | root => exact ⟨bound, fun n id h => pending n id (by simpa using h)⟩
  | revisit => exact ⟨bound, fun n id h => pending n id (by simpa using h)⟩
  | @visit r n rest visited released fresh =>
    refine ⟨fun m id h => ?_, fun m id h => ?_⟩
    · rw [Registry.withdraw, Disposables.handle?_erase] at h
      split at h
      · cases h
      · exact bound m id h
    · rcases List.mem_append.mp h with new | old
      · obtain ⟨rfl, held⟩ := Registry.release_mem_opening.mp new
        cases hm : r.disposables.handle? m with
        | none => simp [hm] at held
        | some handle =>
          rw [hm, Option.getD_some] at held
          exact bound m id (hm.trans (congrArg some held.symm))
      · exact pending m id (List.mem_cons_of_mem _ old)
  | release => exact ⟨bound, fun n id h => pending n id (List.mem_cons_of_mem _ h)⟩
  | inside => exact ⟨bound, fun n id h => pending n id (by simpa using h)⟩
  | forget => exact ⟨bound, fun n id h => pending n id (List.mem_cons_of_mem _ h)⟩
  | finish => exact ⟨bound, fun n id h => pending n id (List.mem_cons_of_mem _ h)⟩

end Dismantling

namespace Session

variable {env : Environment}

/-- Whatever waits below, one point of a run leads to another one, with these events on the way. -/
def Leads (env : Environment) (w : World) (c : Control) (w' : World) (c' : Control)
    (events : List Event) : Prop :=
  ∀ stack history, Reaches env { world := w, control := c, stack, history }
    { world := w', control := c', stack, history := events.reverse ++ history }

theorem Leads.refl (w : World) (c : Control) : Leads env w c w c [] := fun _ _ => .refl

theorem Leads.trans {w w' w'' : World} {c c' c'' : Control} {es fs : List Event}
    (h : Leads env w c w' c' es) (k : Leads env w' c' w'' c'' fs) :
    Leads env w c w'' c'' (es ++ fs) := by
  intro stack history
  rw [List.reverse_append, List.append_assoc]
  exact (h stack history).trans (k stack _)

theorem leads_answered {w : World} {op : Operation} {reply : Reply}
    (h : (w.perform env.host op).progress = .answered reply) :
    Leads env w (.perform op) (w.perform env.host op).world (.answered reply)
      (.began op :: ((w.perform env.host op).events ++ [.answered reply])) := by
  intro stack history
  refine .next .refl ((congrArg some (turn_answered _ h)).trans ?_)
  simp [record]

/-- An operation beside the registry is answered at once. -/
theorem leads_aside (env : Environment) {op : Operation} (h : op.isAside) (w : World) :
    ∃ w' reply events, w'.registry = w.registry ∧ Event.Releases events [] ∧
      events.filterMap Event.ending? = [] ∧
      Leads env w (.perform op) w' (.answered reply) events := by
  have bare (reply : Reply) (ds : List Logging.Delivery) :
      Event.Releases (.began op :: (ds.map .delivered ++ [.answered reply])) [] :=
    .cons rfl rfl (.append (Event.releases_delivered ds) ⟨rfl, rfl⟩)
  have endless (reply : Reply) (ds : List Logging.Delivery) :
      (Event.began op :: (ds.map .delivered ++ [.answered reply])).filterMap Event.ending? =
        [] := by
    rw [List.filterMap_cons_none rfl, List.filterMap_append, Event.endings_delivered]
    rfl
  cases op with
  | log q =>
    have answered : (w.perform env.host (.log q)).progress = .answered _ := rfl
    exact ⟨(w.perform env.host (.log q)).world, _, _, rfl, bare _ _, endless _ _,
      leads_answered answered⟩
  | router q =>
    have answered : (w.perform env.host (.router q)).progress = .answered _ := rfl
    exact ⟨(w.perform env.host (.router q)).world, _, _, rfl, bare _ _, endless _ _,
      leads_answered answered⟩
  | registry q => cases h
  | part q => cases h

/-- A program that leaves the registry alone ends. -/
theorem exists_ended_of_quiet (env : Environment) {p : Program} (hp : p.Quiet) (w : World) :
    ∃ w' ended events, w'.registry = w.registry ∧ Event.Releases events [] ∧
      events.filterMap Event.ending? = [] ∧
      ∀ cause stack history, Reaches env (enter w cause stack history p)
        { world := w', control := .ended cause ended, stack
          history := events.reverse ++ history } := by
  induction p generalizing w with
  | finish ended => exact ⟨w, ended, [], rfl, ⟨rfl, rfl⟩, rfl, fun _ _ _ => .refl⟩
  | perform op next ih =>
    obtain ⟨w₁, reply, es, same, bare, endless, first⟩ := leads_aside env hp.1 w
    obtain ⟨w₂, ended, fs, same', bare', endless', rest⟩ := ih reply (hp.2 reply) w₁
    refine ⟨w₂, ended, es ++ fs, same'.trans same, bare.append bare', ?_,
      fun cause stack history => ?_⟩
    · rw [List.filterMap_append, endless, endless']
      rfl
    · rw [List.reverse_append, List.append_assoc]
      exact ((first (⟨next, cause⟩ :: stack) history).next rfl).trans (rest cause stack _)
  | block body next ihb ihn =>
    obtain ⟨w₁, result, es, same, bare, endless, inside⟩ := ihb hp.1 w
    let reply : Reply := result.map fun _ => .nothing
    obtain ⟨w₂, ended, fs, same', bare', endless', rest⟩ := ihn reply (hp.2 reply) w₁
    refine ⟨w₂, ended, .opened :: (es ++ .closed reply :: fs), same'.trans same,
      .cons rfl rfl (bare.append (.cons rfl rfl bare')), ?_, fun cause stack history => ?_⟩
    · rw [List.filterMap_cons_none rfl, List.filterMap_append, endless,
        List.filterMap_cons_none rfl, endless']
      rfl
    · have opened := inside .block (⟨next, cause⟩ :: stack) (.opened :: history)
      have closed := ((opened.next rfl).next rfl).trans (rest cause stack _)
      simp only [List.reverse_cons, List.reverse_append, List.append_assoc, List.cons_append,
        List.nil_append]
      exact closed

theorem leads_tearing {w : World} {agenda rest : Agenda} {a : Advance}
    (ha : w.registry.teardown agenda = a) (h : a.progress = .tearing rest) :
    Leads env w (.teardown agenda) (w.advance a).world (.teardown rest) (w.advance a).events := by
  subst ha
  exact fun _ _ => .next .refl (congrArg some (turn_tearing _ h))

/-- A release callback that leaves the registry alone ends, and the teardown goes on. -/
theorem leads_releasing {w : World} {agenda rest : Agenda} {a : Advance} {n : Name}
    {id : CallbackId} (ha : w.registry.teardown agenda = a)
    (h : a.progress = .calling id (.releasing n rest))
    (called : a.notes.filterMap Note.release? = [(n, .callback id)])
    (quiet : ∀ k, (env.body id k).Quiet) :
    ∃ w' events ended, w'.registry = (a.registry.released n rest ended).registry ∧
      Event.Releases events [(n, .callback id)] ∧ events.filterMap Event.ending? = [ended] ∧
      Leads env w (.teardown agenda) w' (.teardown rest) events := by
  subst ha
  let first := w.advance (w.registry.teardown agenda)
  let waiting : Waiting := .releasing n rest
  obtain ⟨w₁, ended, es, same, silent, endless, inside⟩ :=
    exists_ended_of_quiet env (quiet (first.world.count id).1) (first.world.count id).2
  have unchanged : w₁.registry = (w.registry.teardown agenda).registry :=
    same.trans (w.registry_advance _)
  let last := w₁.advance (w₁.registry.resume ended waiting)
  have left : last.progress = .tearing rest := by
    obtain ⟨_, _, resumed⟩ := w₁.registry.released_eq n rest ended
    exact congrArg Advance.progress resumed
  refine ⟨last.world, first.events ++ .entered id (first.world.count id).1 waiting ::
    (es ++ .left id (first.world.count id).1 ended :: last.events), ended, ?_, ?_, ?_, ?_⟩
  · rw [World.registry_advance, ← unchanged]
    rfl
  · obtain ⟨releases, noCall⟩ := w.advance_events (w.registry.teardown agenda)
    obtain ⟨noRelease, noCall'⟩ := w₁.advance_events (w₁.registry.resume ended waiting)
    have nothing : (w₁.registry.resume ended waiting).notes.filterMap Note.release? = [] :=
      w₁.registry.release?_released n rest ended
    refine ⟨?_, ?_⟩
    · rw [List.filterMap_append, releases, called, List.filterMap_cons_none rfl,
        List.filterMap_append, silent.1, List.filterMap_cons_none rfl, noRelease, nothing]
      rfl
    · have entered : (Event.entered id (first.world.count id).1 waiting).call? = some (n, id) :=
        rfl
      rw [List.filterMap_append, noCall, List.filterMap_cons_some entered, List.filterMap_append,
        silent.2, List.filterMap_cons_none rfl, noCall']
      rfl
  · have ends : (Event.left id (first.world.count id).1 ended).ending? = some ended := rfl
    rw [List.filterMap_append, World.advance_endings, List.filterMap_cons_none rfl,
      List.filterMap_append, endless, List.filterMap_cons_some ends, World.advance_endings]
    rfl
  · intro stack history
    have enters : Reaches env { world := w, control := .teardown agenda, stack, history } _ :=
      .next .refl (congrArg some (turn_calling _ h))
    have after := (enters.trans (inside _ stack _)).next (congrArg some (turn_tearing _ left))
    simp only [List.reverse_append, List.reverse_cons, List.append_assoc, List.cons_append,
      List.nil_append]
    exact after

/-- A run of operations has followed a teardown from one point to another one: what it released,
how the callbacks among that have ended, and the failures that are recorded for it. -/
structure Follows (env : Environment) (w : World) (d e : Dismantling) (w' : World)
    (events : List Event) (released : List (Name × Handle))
    (endings : List (Except Thrown Returned)) : Prop where
  registry : w'.registry = { e.registry with
    releaseFaults := Registry.recordedAll d.registry.config.limit w.registry.releaseFaults
      (Handle.callsIn released) endings }
  grown : e.released = d.released ++ released
  releases : Event.Releases events released
  ends : events.filterMap Event.ending? = endings
  length : (Handle.callsIn released).length = endings.length
  leads : Leads env w (.teardown ⟨d.items, d.visited⟩) w' (.teardown ⟨e.items, e.visited⟩) events

/-- A run of operations follows the steps of a teardown. -/
theorem follows_step {d e : Dismantling} (h : d.Step e) (quiet : d.Quiet env) {w : World}
    (alike : d.registry.Alike w.registry) :
    ∃ w' events released endings, Follows env w d e w' events released endings := by
  obtain ⟨progress, notes, done, grown, moves⟩ := h.teardown
  obtain ⟨faults, hw⟩ := alike
  let a : Advance := { registry := { e.registry with releaseFaults := faults }, progress, notes }
  have ha : w.registry.teardown ⟨d.items, d.visited⟩ = a := by
    rw [hw, Registry.teardown_alike, done]
  have kept : w.registry.releaseFaults = faults := by rw [hw]
  rcases moves with ⟨tearing, uncalled⟩ | ⟨n, id, items, calling, called⟩
  · obtain ⟨releases, noCall⟩ := w.advance_events a
    refine ⟨_, _, _, [], ?_, grown, ⟨releases, noCall.trans uncalled.symm⟩, w.advance_endings a,
      by rw [uncalled]; rfl, leads_tearing ha tearing⟩
    rw [World.registry_advance, uncalled, kept]
    rfl
  · have next : .release n (.callback id) ∈ d.items := items ▸ List.mem_cons_self
    obtain ⟨w', events, ended, same, releases, endings, leads⟩ :=
      leads_releasing ha calling called (quiet.pending n id next)
    refine ⟨w', events, _, [ended], ?_, called ▸ grown, releases, endings, rfl, leads⟩
    rw [same, Registry.registry_released, kept, ← h.config]
    rfl

theorem follows_comes {d e : Dismantling} (h : d.Comes e) (quiet : d.Quiet env) {w : World}
    (alike : d.registry.Alike w.registry) :
    ∃ w' events released endings, Follows env w d e w' events released endings := by
  induction h using Relation.ReflTransGen.head_induction_on generalizing w with
  | refl =>
    obtain ⟨faults, hw⟩ := alike
    refine ⟨w, [], [], [], ?_, (List.append_nil _).symm, ⟨rfl, rfl⟩, rfl, rfl, .refl w _⟩
    rw [hw]
    rfl
  | head step _ ih =>
    obtain ⟨w₁, es, rs, xs, first⟩ := follows_step step quiet alike
    obtain ⟨w₂, fs, ss, ys, rest⟩ := ih (quiet.step step) ⟨_, first.registry⟩
    have calls : Handle.callsIn (rs ++ ss) = Handle.callsIn rs ++ Handle.callsIn ss :=
      List.filterMap_append
    refine ⟨w₂, es ++ fs, rs ++ ss, xs ++ ys, ?_, ?_, first.releases.append rest.releases, ?_, ?_,
      first.leads.trans rest.leads⟩
    · rw [rest.registry, calls, Registry.recordedAll_append _ _ first.length, first.registry,
        step.config]
    · rw [rest.grown, first.grown, List.append_assoc]
    · rw [List.filterMap_append, first.ends, rest.ends]
    · rw [calls, List.length_append, List.length_append, first.length, rest.length]

/-- A request to destroy is answered, having released these handles in this order and called no
callbacks but those among them. -/
def Destroys (env : Environment) (w : World) (q : Request) (w' : World)
    (released : List (Name × Handle)) : Prop :=
  ∃ events, Event.Releases events released ∧
    Leads env w (.perform (.registry q)) w' (.answered (.ok .nothing)) events

theorem leads_requested {w : World} {q : Request} {agenda : Agenda}
    (h : (w.registry.request q).progress = .tearing agenda) :
    Leads env w (.perform (.registry q)) (w.advance (w.registry.request q)).world
      (.teardown agenda)
      (.began (.registry q) :: (w.advance (w.registry.request q)).events) := by
  intro stack history
  refine .next .refl ((congrArg some (turn_tearing _ h)).trans ?_)
  simp [record, World.perform]

theorem leads_done (w : World) (visited : NameSet) :
    Leads env w (.teardown ⟨[], visited⟩) w (.answered (.ok .nothing))
      [.answered (.ok .nothing)] :=
  fun _ _ => .next .refl rfl

/-- A request to destroy that a teardown answers, with what it released, how the callbacks among
that have ended, and the failures that are recorded. -/
theorem exists_answered_of_comes {w : World} {q : Request} {d e : Dismantling} {notes : List Note}
    (starts : w.registry.request q =
      { registry := d.registry, progress := .tearing ⟨d.items, d.visited⟩, notes })
    (silent : notes.filterMap Note.release? = []) (unreleased : d.released = [])
    (quiet : d.Quiet env) (h : d.Comes e) (done : e.items = []) :
    ∃ w' events endings, Event.Releases events e.released ∧
      events.filterMap Event.ending? = endings ∧
      (Handle.callsIn e.released).length = endings.length ∧
      Leads env w (.perform (.registry q)) w' (.answered (.ok .nothing)) events ∧
      w'.registry = { e.registry with
        releaseFaults := Registry.recordedAll d.registry.config.limit d.registry.releaseFaults
          (Handle.callsIn e.released) endings } := by
  let begun := w.advance (w.registry.request q)
  have registry : begun.world.registry = d.registry := by
    rw [World.registry_advance, starts]
  have opening : Event.Releases (.began (.registry q) :: begun.events) [] := by
    obtain ⟨releases, noCall⟩ := w.advance_events (w.registry.request q)
    refine .cons rfl rfl ⟨?_, noCall⟩
    rw [releases, starts, silent]
  obtain ⟨w', events, released, endings, follows⟩ :=
    follows_comes h quiet ⟨d.registry.releaseFaults, registry⟩
  have grown := follows.grown
  rw [unreleased, List.nil_append] at grown
  have tears := follows.leads
  rw [done] at tears
  have requested : Leads env w (.perform (.registry q)) begun.world _ _ :=
    leads_requested (congrArg Advance.progress starts)
  refine ⟨w', _, endings, ?_, ?_, grown ▸ follows.length,
    requested.trans (tears.trans (leads_done w' e.visited)), ?_⟩
  · have ending : Event.Releases [.answered (.ok .nothing)] [] := ⟨rfl, rfl⟩
    have total := opening.append (follows.releases.append ending)
    rwa [List.nil_append, List.append_nil, ← grown] at total
  · rw [List.filterMap_append, List.filterMap_cons_none rfl, World.advance_endings,
      List.filterMap_append, follows.ends]
    exact List.append_nil _
  · rw [follows.registry, registry, grown]

theorem destroys_of_comes {w : World} {q : Request} {d e : Dismantling} {notes : List Note}
    (starts : w.registry.request q =
      { registry := d.registry, progress := .tearing ⟨d.items, d.visited⟩, notes })
    (silent : notes.filterMap Note.release? = []) (unreleased : d.released = [])
    (quiet : d.Quiet env) (h : d.Comes e) (done : e.items = []) :
    ∃ w', Destroys env w q w' e.released ∧ e.registry.Alike w'.registry := by
  obtain ⟨w', events, _, releases, -, -, leads, registry⟩ :=
    exists_answered_of_comes starts silent unreleased quiet h done
  exact ⟨w', ⟨events, releases, leads⟩, _, registry⟩

/-- What a request to destroy comes to is determined. -/
theorem Destroys.unique {w w₁ w₂ : World} {q : Request} {rs ss : List (Name × Handle)}
    (h : Destroys env w q w₁ rs) (k : Destroys env w q w₂ ss) : w₁ = w₂ ∧ rs = ss := by
  obtain ⟨es, ⟨releases, -⟩, leads⟩ := h
  obtain ⟨fs, ⟨releases', -⟩, leads'⟩ := k
  have ends := (leads [] []).last_unique (leads' [] []) rfl rfl
  obtain ⟨rfl, -, -, same⟩ := Session.mk.inj ends
  rw [List.append_nil, List.append_nil, List.reverse_inj] at same
  exact ⟨rfl, by rw [← releases, same, releases']⟩

end Session

end Singletons
