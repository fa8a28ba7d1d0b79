import Mathlib.Data.List.Induction
import PartitionLedger.Proofs.Coherence

/-!
No update is lost and none made up: which partitions of a key exist is what the settled calls on it
say, through evictions, restarts with other configurations and failures of the store.

The key's strategy must allow gaps in every configuration of the history. What carries the induction
is what the key's table stands for under any such configuration.
-/
namespace PartitionLedger

namespace Call

/-- The partitions that a call makes exist or not exist. -/
def names (q : Partition) : Call → Bool
  | add p => p = q
  | addAll ps => q ∈ ps
  | addRange range => q ∈ range.toList
  | drop p => p = q
  | _ => false

/-- Whether a call makes the partitions that it names exist. -/
def adds : Call → Bool
  | add _ | addAll _ | addRange _ => true
  | _ => false

/-- Whether the last of some calls that names a partition is one that adds. -/
def addedLast (calls : List Call) (q : Partition) : Bool :=
  (calls.reverse.find? (names q)).any adds

theorem addedLast_concat (calls : List Call) (call : Call) (q : Partition) :
    addedLast (calls ++ [call]) q = if call.names q then call.adds else addedLast calls q := by
  rw [addedLast, List.reverse_append, List.reverse_singleton, List.singleton_append, List.find?_cons]
  cases call.names q <;> rfl

/-- A call that is no change names nothing. -/
theorem addedLast_concat_look {call : Call} (h : call.edit? = none) (calls : List Call) :
    addedLast (calls ++ [call]) = addedLast calls := by
  funext q
  rw [addedLast_concat]
  cases call with
  | add p => cases h
  | addAll ps => cases h
  | addRange range => cases h
  | drop p => cases h
  | read => rfl
  | list => rfl
  | listWithin range => rfl
  | has qs => rfl
  | hold => rfl
  | evict => rfl

/-- What a change answers that succeeds, by which partitions exist before it. -/
def truth (exist : Partition → Bool) : Call → Bool
  | add q => !exist q
  | addAll qs => qs.any (!exist ·)
  | addRange range => range.toList.any (!exist ·)
  | drop q => exist q
  | _ => false

/-- A change that succeeds leaves what it names as it says, and the rest as it was. -/
theorem edit?_spec {call : Call} {edit : Timeline → Timeline × Except TimelineError Bool}
    (hedit : call.edit? = some edit) {t : Timeline} (h : t.Explicit) {flag : Bool}
    (hok : (edit t).2 = .ok flag) :
    flag = call.truth t.has ∧
      ∀ q, (edit t).1.has q = if call.names q then call.adds else t.has q := by
  have haddAll : ∀ qs, (t.addAll qs).2 = .ok flag → flag = qs.any (!t.has ·) ∧
      ∀ q, (t.addAll qs).1.has q = if q ∈ qs then true else t.has q := by
    intro qs hqs
    obtain ⟨hflag, hhas⟩ := h.addAll (Timeline.period_of_addAll hqs)
    refine ⟨Except.ok.inj (hqs.symm.trans hflag), ?_⟩
    intro q
    rw [Bool.eq_iff_iff, hhas]
    split <;> simp [*]
  cases call with
  | add q =>
    cases hedit
    obtain ⟨hflag, hhas⟩ := h.add (Timeline.period_of_add hok)
    refine ⟨Except.ok.inj (hok.symm.trans hflag), ?_⟩
    intro r
    rw [Bool.eq_iff_iff, hhas]
    by_cases hr : q = r
    · subst hr
      simp [names, adds]
    · simp [names, hr, Ne.symm hr]
  | addAll qs =>
    cases hedit
    obtain ⟨hflag, hhas⟩ := haddAll qs hok
    exact ⟨hflag, fun q => by simpa [names, adds] using hhas q⟩
  | addRange range =>
    cases hedit
    simp only [Timeline.addRange_eq_addAll] at hok ⊢
    obtain ⟨hflag, hhas⟩ := haddAll range.toList hok
    exact ⟨hflag, fun q => by simpa [names, adds] using hhas q⟩
  | drop q =>
    cases hedit
    obtain ⟨hflag, hhas⟩ := h.drop (Timeline.period_of_drop hok)
    refine ⟨Except.ok.inj (hok.symm.trans hflag), ?_⟩
    intro r
    rw [Bool.eq_iff_iff, hhas]
    by_cases hr : q = r
    · subst hr
      simp [names, adds]
    · simp [names, hr, Ne.symm hr]
  | read => cases hedit
  | list => cases hedit
  | listWithin range => cases hedit
  | has qs => cases hedit
  | hold => cases hedit
  | evict => cases hedit

end Call

namespace Registry
variable {r : Registry} {key : Key} {t : Timeline} {l : Loaded} {exist : Partition → Bool}

/-- The calls on a key that were answered without an error, in order. -/
def settled (r : Registry) (key : Key) : List Event → List Call
  | [] => []
  | .call k call :: rest =>
    let later := (r.after (.call k call)).settled key rest
    if k = key ∧ (r.perform k call).2.isOk then call :: later else later
  | e :: rest => (r.after e).settled key rest

/-- Whatever configuration that allows gaps a registry has, the key's table stands for a timeline in
which these partitions exist. -/
structure Tells (r : Registry) (key : Key) (exist : Partition → Bool) : Prop where
  coherent : r.Coherent
  gaps : r.config.strategyFor key.period ≠ .continuous
  stored : ∀ config : Config, config.strategyFor key.period ≠ .continuous →
    ∃ t, timelineOf config key (r.store.table key.table) = .ok t ∧ t.strategy ≠ .continuous ∧
      ∀ q, t.has q = exist q

theorem settled_append (r : Registry) (key : Key) (history later : List Event) :
    r.settled key (history ++ later) =
      r.settled key history ++ (r.afterAll history).settled key later := by
  induction history generalizing r with
  | nil => rfl
  | cons e rest ih =>
    cases e with
    | call k call =>
      simp only [List.cons_append, settled, ih, afterAll, List.foldl_cons]
      split <;> rfl
    | addHeld handle q => exact ih _
    | restart config => exact ih _
    | failReads on => exact ih _
    | failWrites on => exact ih _
    | setTable name bag => exact ih _
    | upsert name bag => exact ih _

/-- No table of a new store stands for any partition. -/
theorem timelineOf_empty (config : Config) (key : Key) :
    timelineOf config key ∅ = .ok (.empty key (config.strategyFor key.period)) := rfl

theorem tells_ofStore {config : Config} (h : config.strategyFor key.period ≠ .continuous) :
    Tells (ofStore .empty config) key (Call.addedLast []) := by
  refine ⟨coherent_ofStore _ _, h, ?_⟩
  intro config hgaps
  refine ⟨_, timelineOf_empty config key, ?_, ?_⟩
  · rwa [Timeline.strategy_empty]
  · intro q
    exact Timeline.has_empty _ _ q

namespace Tells
variable (h : Tells r key exist)
include h

/-- A timeline that is accessed has exactly the partitions that exist. -/
theorem access (hl : (r.access key).2 = .ok l) :
    l.timeline.key = key ∧ l.timeline.Explicit ∧ ∀ q, l.timeline.has q = exist q := by
  have hloaded := r.access_atMostLoaded key
  have hstored := coherent_access h.coherent key key l (cached?_access hl)
  obtain ⟨t, ht, hgaps, hhas⟩ := h.stored r.config h.gaps
  rw [hloaded.config, hloaded.store.table, ht] at hstored
  obtain rfl := Except.ok.inj hstored
  obtain ⟨hkey, hconsistent⟩ := of_timelineOf ht
  exact ⟨hkey, ⟨hgaps, hconsistent⟩, hhas⟩

/-- What a table stands for depends on no more than the store and the configuration. -/
theorem of_store {s : Registry} (hcoherent : s.Coherent)
    (hconfig : s.config.strategyFor key.period ≠ .continuous)
    (hstore : s.store.Same r.store) : Tells s key exist := by
  refine ⟨hcoherent, hconfig, ?_⟩
  intro config hgaps
  rw [hstore.table]
  exact h.stored config hgaps

theorem of_access (k : Key) : Tells (r.access k).1 key exist := by
  have hloaded := r.access_atMostLoaded k
  exact h.of_store (coherent_access h.coherent k) (hloaded.config ▸ h.gaps) hloaded.store

/-- A change of another key does not touch what the table stands for, for this key. -/
theorem change_other {edit : Timeline → Timeline × Except TimelineError Bool}
    (hs : Timeline.Sound edit) {k : Key} (hne : k ≠ key) : Tells (r.change k edit).1 key exist := by
  have haccess := h.of_access k
  have hcoherent := coherent_change hs h.coherent k
  have hconfig := config_change hs r k
  rcases change_cases hs r k with
    ⟨_, store, hstore, hchange⟩ | ⟨l, hl, ⟨-, hchange⟩ | ⟨-, -, hchange⟩⟩
  · rw [hchange] at hcoherent ⊢
    exact haccess.of_store hcoherent haccess.gaps hstore
  · rw [hchange]
    exact haccess
  · refine ⟨hcoherent, hconfig ▸ h.gaps, ?_⟩
    intro config hgaps
    have hloaded := coherent_access h.coherent k k l (cached?_access hl)
    have hkey : (edit l.timeline).1.key = k := (hs.key _).trans (of_timelineOf hloaded).1
    rw [hchange]
    change ∃ t, timelineOf config key (((r.access k).1.store.written _).table key.table) = .ok t ∧ _
    rw [timelineOf_written_other (by rw [hkey]; exact hne.symm)]
    exact haccess.stored config hgaps

/-- A change of the key that succeeds is told truly, and what it names exists or not from then on as
it says. -/
theorem change_self {call : Call} {edit : Timeline → Timeline × Except TimelineError Bool}
    (hedit : call.edit? = some edit) {flag : Bool} (hok : (r.change key edit).2 = .ok flag) :
    flag = call.truth exist ∧
      Tells (r.change key edit).1 key (fun q => if call.names q then call.adds else exist q) := by
  have hs := Call.sound_edit? hedit
  have haccess := h.of_access key
  have hcoherent := coherent_change hs h.coherent key
  have hconfig := config_change hs r key
  rcases change_cases hs r key with
    ⟨e, store, -, hchange⟩ | ⟨l, hl, ⟨hflag, hchange⟩ | ⟨hflag, -, hchange⟩⟩
  · rw [hchange] at hok
    cases hok
  · obtain ⟨-, hexplicit, hhas⟩ := h.access hl
    obtain ⟨htruth, hafter⟩ := Call.edit?_spec hedit hexplicit hflag
    obtain rfl : l.timeline.has = exist := funext hhas
    rw [hchange] at hok ⊢
    cases hok
    refine ⟨htruth, ?_⟩
    have hsame : (fun q => if call.names q then call.adds else l.timeline.has q) =
        l.timeline.has := by
      funext q
      rw [← hafter, hs.unchanged _ hflag]
    rw [hsame]
    exact haccess
  · obtain ⟨hkey, hexplicit, hhas⟩ := h.access hl
    obtain ⟨htruth, hafter⟩ := Call.edit?_spec hedit hexplicit hflag
    obtain rfl : l.timeline.has = exist := funext hhas
    have hflag : flag = true := by
      rw [hchange] at hok
      exact (Except.ok.inj hok).symm
    refine ⟨hflag ▸ htruth, hcoherent, hconfig ▸ h.gaps, ?_⟩
    intro config hgaps
    obtain ⟨hgaps', hconsistent⟩ := hs.explicit hexplicit
    refine ⟨(edit l.timeline).1, ?_, hgaps', hafter⟩
    have hkey' : (edit l.timeline).1.key = key := (hs.key _).trans hkey
    rw [hchange]
    subst hkey'
    exact timelineOf_written_self hconsistent _ config

end Tells

section History
variable {calls : List Call} (h : Tells r key (Call.addedLast calls))
include h

theorem tells_call_other (call : Call) {k : Key} (hne : k ≠ key) :
    Tells (r.perform k call).1 key (Call.addedLast calls) := by
  rcases call_cases call with ⟨edit, hedit⟩ | ⟨look, hlook⟩ | rfl
  · rw [perform_edit hedit]
    exact h.change_other (Call.sound_edit? hedit) hne
  · rw [perform_look hlook]
    exact h.of_access k
  · exact h.of_store (coherent_evict h.coherent k) h.gaps (Store.Same.refl _)

theorem tells_call_self (call : Call) : Tells (r.perform key call).1 key
    (Call.addedLast (calls ++ if (r.perform key call).2.isOk then [call] else [])) := by
  have hidle : ∀ b : Bool, call.edit? = none →
      Call.addedLast (calls ++ if b then [call] else []) = Call.addedLast calls := by
    intro b hnone
    cases b with
    | false => rw [if_neg (by decide), List.append_nil]
    | true => exact Call.addedLast_concat_look hnone calls
  rcases call_cases call with ⟨edit, hedit⟩ | ⟨look, hlook⟩ | rfl
  · rw [perform_edit hedit]
    cases hc : (r.change key edit).2 with
    | error e =>
      have hloaded := change_error (Call.sound_edit? hedit) hc
      simp only [Prod.map, hc, Except.map, Except.isOk, Except.toBool]
      rw [if_neg (by decide), List.append_nil]
      exact h.of_store (hloaded.coherent h.coherent) (hloaded.config ▸ h.gaps) hloaded.store
    | ok flag =>
      obtain ⟨-, hafter⟩ := h.change_self hedit hc
      simp only [Prod.map, hc, Except.map, Except.isOk, Except.toBool, if_true]
      rw [funext (Call.addedLast_concat calls call)]
      exact hafter
  · rw [hidle _ (Call.edit?_of_look? hlook), perform_look hlook]
    exact h.of_access key
  · rw [hidle _ rfl]
    exact h.of_store (coherent_evict h.coherent key) h.gaps (Store.Same.refl _)

theorem tells_after {e : Event} (ho : e.Own)
    (hgaps : ∀ config, e = .restart config → config.strategyFor key.period ≠ .continuous) :
    Tells (r.after e) key (Call.addedLast (calls ++ r.settled key [e])) := by
  have hcoherent := coherent_after ho h.coherent
  cases e with
  | call k call =>
    simp only [settled]
    by_cases hk : k = key
    · subst hk
      have hstep := tells_call_self h call
      simp only [true_and]
      exact hstep
    · simp only [hk, false_and, if_false, List.append_nil]
      exact tells_call_other h call hk
  | restart config =>
    simp only [settled, List.append_nil]
    exact h.of_store hcoherent (hgaps config rfl) (Store.Same.refl _)
  | failReads on =>
    simp only [settled, List.append_nil]
    exact ⟨hcoherent, h.gaps, h.stored⟩
  | failWrites on =>
    simp only [settled, List.append_nil]
    exact ⟨hcoherent, h.gaps, h.stored⟩
  | addHeld handle q => exact ho.elim
  | setTable name bag => exact ho.elim
  | upsert name bag => exact ho.elim

end History

/-- After any history what exists is what the settled calls say. -/
theorem tells_afterAll {config : Config} {history : List Event} (ho : ∀ e ∈ history, e.Own)
    (hgaps : config.strategyFor key.period ≠ .continuous)
    (hrestarts : ∀ c, .restart c ∈ history → c.strategyFor key.period ≠ .continuous) :
    Tells ((ofStore .empty config).afterAll history) key
      (Call.addedLast ((ofStore .empty config).settled key history)) := by
  induction history using List.reverseRecOn with
  | nil => exact tells_ofStore hgaps
  | append_singleton history e ih =>
    have hbefore := ih (fun d hd => ho d (List.mem_append_left _ hd))
      (fun c hc => hrestarts c (List.mem_append_left _ hc))
    rw [settled_append, afterAll, List.foldl_append]
    apply tells_after hbefore (ho e (by simp))
    rintro c rfl
    exact hrestarts c (by simp)

/-- A registry answers for a key as one that keeps exactly these partitions: what it shows is these
partitions, and a change that succeeds says whether it was one. While reads work it can be read, and
while writes work too partitions of the key's period are added and dropped. -/
structure Truthful (r : Registry) (key : Key) (exist : Partition → Bool) : Prop where
  readable : r.store.failReads = false → ∃ t, (r.perform key .read).2 = .ok (.timeline t)
  writable : r.store.failReads = false → r.store.failWrites = false → ∀ q, q.period = key.period →
    (r.perform key (.add q)).2.isOk ∧ (r.perform key (.drop q)).2.isOk
  read : ∀ a, (r.perform key .read).2 = .ok a → ∃ t, a = .timeline t ∧ t.key = key ∧
    (∀ q, t.has q = exist q) ∧ ∀ q, q ∈ t.toList ↔ exist q
  has : ∀ qs a, (r.perform key (.has qs)).2 = .ok a → a = .flags (qs.map exist)
  list : ∀ a, (r.perform key .list).2 = .ok a → ∃ listed, a = .partitions listed ∧
    listed.Pairwise (· < ·) ∧ ∀ q, q ∈ listed ↔ exist q
  add : ∀ q a, (r.perform key (.add q)).2 = .ok a → a = .changed (!exist q)
  addAll : ∀ qs a, (r.perform key (.addAll qs)).2 = .ok a → a = .changed (qs.any (!exist ·))
  drop : ∀ q a, (r.perform key (.drop q)).2 = .ok a → a = .changed (exist q)

namespace Tells
variable (h : Tells r key exist)
include h

theorem look {call : Call} {look : Loaded → Except RegistryError Answer}
    (hlook : call.look? = some look) {a : Answer} (ha : (r.perform key call).2 = .ok a) :
    ∃ l, look l = .ok a ∧ l.timeline.key = key ∧ ∀ q, l.timeline.has q = exist q := by
  rw [perform_look hlook] at ha
  obtain ⟨l, hl, hlook⟩ := bind_eq_ok.mp ha
  obtain ⟨hkey, -, hhas⟩ := h.access hl
  exact ⟨l, hlook, hkey, hhas⟩

theorem changed {call : Call} {edit : Timeline → Timeline × Except TimelineError Bool}
    (hedit : call.edit? = some edit) {a : Answer} (ha : (r.perform key call).2 = .ok a) :
    a = .changed (call.truth exist) := by
  rw [perform_edit hedit] at ha
  obtain ⟨flag, hc, rfl⟩ := map_eq_ok.mp ha
  rw [(h.change_self hedit hc).1]

theorem access_ok (hreads : r.store.failReads = false) : ∃ l, (r.access key).2 = .ok l := by
  obtain ⟨t, ht, -⟩ := h.stored r.config h.gaps
  obtain ⟨l, hl, -⟩ := map_eq_ok.mp ((access_coherent h.coherent hreads key).trans ht)
  exact ⟨l, hl⟩

theorem perform_ok {call : Call} {edit : Timeline → Timeline × Except TimelineError Bool}
    (hedit : call.edit? = some edit) (hreads : r.store.failReads = false)
    (hwrites : r.store.failWrites = false)
    (hok : ∀ t, t.key = key → t.Explicit → ∃ flag, (edit t).2 = .ok flag) :
    (r.perform key call).2.isOk := by
  obtain ⟨l, hl⟩ := h.access_ok hreads
  obtain ⟨hkey, hexplicit, -⟩ := h.access hl
  obtain ⟨flag, hflag⟩ := hok l.timeline hkey hexplicit
  have hworks := (r.access_atMostLoaded key).store.failWrites.trans hwrites
  rw [perform_edit hedit]
  simp only [Prod.map, change_working hl hworks hflag]
  rfl

theorem truthful : Truthful r key exist := by
  refine ⟨?_, ?_, ?_, ?_, ?_, ?_, ?_, ?_⟩
  · intro hreads
    obtain ⟨l, hl⟩ := h.access_ok hreads
    refine ⟨l.timeline, ?_⟩
    rw [perform_look rfl, hl]
    rfl
  · intro hreads hwrites q hq
    constructor
    · apply h.perform_ok rfl hreads hwrites
      intro t hkey ht
      exact ⟨_, (ht.add (hkey ▸ hq)).1⟩
    · apply h.perform_ok rfl hreads hwrites
      intro t hkey ht
      exact ⟨_, (ht.drop (hkey ▸ hq)).1⟩
  · intro a ha
    obtain ⟨l, hl, hkey, hhas⟩ := h.look rfl ha
    cases hl
    exact ⟨l.timeline, rfl, hkey, hhas, fun q => by rw [Timeline.mem_toList, hhas]⟩
  · intro qs a ha
    obtain ⟨l, hl, -, hhas⟩ := h.look rfl ha
    cases hl
    rw [funext hhas]
  · intro a ha
    obtain ⟨l, hl, -, hhas⟩ := h.look rfl ha
    cases hl
    exact ⟨_, rfl, l.timeline.toList_ascending, fun q => by rw [Timeline.mem_toList, hhas]⟩
  · intro q a ha
    exact h.changed rfl ha
  · intro qs a ha
    exact h.changed rfl ha
  · intro q a ha
    exact h.changed rfl ha

end Tells

/-- From an empty store on, whatever happens to a registry and its store, a partition of a key exists
exactly if the last of the settled calls that names it adds it. -/
theorem no_update_lost {config : Config} {history : List Event} (ho : ∀ e ∈ history, e.Own)
    (hgaps : config.strategyFor key.period ≠ .continuous)
    (hrestarts : ∀ c, .restart c ∈ history → c.strategyFor key.period ≠ .continuous) :
    Truthful ((ofStore .empty config).afterAll history) key
      (Call.addedLast ((ofStore .empty config).settled key history)) :=
  (tells_afterAll ho hgaps hrestarts).truthful

/-- A drop that could not be written does not count, also after a restart. -/
theorem no_update_lost_failed_drop :
    let key : Key := ⟨"events", .daily, "dt"⟩
    let day : Partition := ⟨.daily, 0, by decide, by decide⟩
    let history : List Event := [.call key (.add day), .failWrites true, .call key (.drop day),
      .restart (.ofStrategy .endsAndHoles)]
    (ofStore .empty .standard).settled key history = [.add day] ∧
      Truthful ((ofStore .empty .standard).afterAll history) key (Call.addedLast [.add day]) := by
  intro key day history
  have hown : ∀ e ∈ history, e.Own := by simp [history, Event.Own]
  have hrestarts : ∀ c, .restart c ∈ history → c.strategyFor key.period ≠ .continuous := by
    intro c hc
    have hc : c = .ofStrategy .endsAndHoles := by simpa [history] using hc
    rw [hc]
    decide
  have hsettled : (ofStore .empty .standard).settled key history = [.add day] := by rfl
  refine ⟨hsettled, ?_⟩
  rw [← hsettled]
  exact no_update_lost hown (by decide) hrestarts

end Registry
end PartitionLedger
