import IntentumdiffLsp.Sessions

namespace IntentumdiffLsp.Lenses

open Foundations
open Foundations.DerivedView
open Foundations.Journal
open Foundations.UnixPath
open IntentumdiffLsp.Json
open IntentumdiffLsp.UriPath
open IntentumdiffLsp.Server
open IntentumdiffLsp.Sessions

def pullOf (event : Event) : Option (Value × String) :=
  match event.cause with
  | .message msg =>
      if methodOf msg = some .codeLens then
        (msg.get "id").map fun id => (id, (documentUri (paramsOf msg)).getD "")
      else none
  | .computation _ _ => none

theorem written_of_pullOf {ctx : Context} {now : Env} {event : Event} {id : Value}
    {uri : String} (h : pullOf event = some (id, uri)) (hreacts : Reacts ctx now event) :
    event.written =
      [respond id (.array (((event.found.diffCache uri).map ctx.codeLens).getD []))] := by
  rcases hcause : event.cause with msg | ⟨u, served⟩
  · simp only [pullOf, hcause] at h
    obtain ⟨hmethod, hid⟩ := Option.ite_none_right_eq_some.mp h
    obtain ⟨id', hid', hpair⟩ := Option.map_eq_some_iff.mp hid
    cases hpair
    rw [Reacts, hcause] at hreacts
    obtain ⟨s, hfound, hdispatch⟩ := hreacts
    simp only [Session.dispatch, hmethod, Prod.mk.injEq] at hdispatch
    rw [← hdispatch.2, hfound, answer, hid']
    rfl
  · simp only [pullOf, hcause] at h
    cases h

/-- A diff that an event caches is the one the engine returned for the content that
the document had then. -/
theorem computed_of_diffWrite {ctx : Context} {now : Env} {event : Event} {uri : String}
    {diff : Value} (hreacts : Reacts ctx now event)
    (hwrite : diffWrite event uri = some (some diff)) :
    ∃ content, event.cause = .computation uri (some (content, diff)) ∧
      event.found.contentCache uri = some content ∧
      diffOf ctx now event.found uri content = some diff := by
  rcases hcause : event.cause with msg | ⟨u, served⟩
  · rw [diffWrite, hcause] at hwrite
    obtain ⟨edit, -, hentry⟩ := Option.bind_eq_some_iff.mp hwrite
    cases edit with
    | put => cases hentry
    | remove u =>
        rw [Edit.viewEntry] at hentry
        split at hentry <;> cases hentry
  · rcases served with _ | ⟨content, diff'⟩
    · rw [diffWrite, hcause] at hwrite
      cases hwrite
    · rw [diffWrite, hcause] at hwrite
      rw [Reacts, hcause] at hreacts
      obtain ⟨rfl, ⟨⟩⟩ := Option.ite_none_right_eq_some.mp hwrite
      have hserved := (servedDiff_eq ctx now event.found uri).symm.trans (congrArg Prod.snd hreacts.1)
      obtain ⟨content', hcontent, hdiff⟩ := Option.bind_eq_some_iff.mp hserved
      obtain ⟨diff', hdiff', hpair⟩ := Option.map_eq_some_iff.mp hdiff
      cases hpair
      exact ⟨_, rfl, hcontent, hdiff'⟩

/-- The answer to a pull is the lenses of the last diff that was computed for the
document and not dropped since, or empty. It is current as long as the document was
not opened or changed after that computation. -/
theorem pull_answer (ctx : Context) (env : Nat → Env) (gitRef wasmDir : String)
    (batches : List (List Value)) (front back : List Event) (event : Event) (id : Value)
    (uri : String)
    (htrace : ((Session.new gitRef wasmDir).run ctx env batches).trace = front ++ event :: back)
    (hpull : pullOf event = some (id, uri)) :
    event.found.contentCache uri = replay contentWrite front uri ∧
    (event.written = [respond id (.array [])] ∨
      ∃ earlier computed since content diff, front = earlier ++ computed :: since ∧
        computed.cause = .computation uri (some (content, diff)) ∧
        replay contentWrite earlier uri = some content ∧
        diffOf ctx (env earlier.length) computed.found uri content = some diff ∧
        event.written = [respond id (.array (ctx.codeLens diff))] ∧
        (∀ later ∈ since, diffWrite later uri = none) ∧
        ((∀ later ∈ since, contentWrite later uri = none) →
          event.found.contentCache uri = some content)) := by
  have hrecorded := (recorded_run ctx env gitRef wasmDir batches).explained
  obtain ⟨hfollows, hreacts⟩ := hrecorded front event back htrace
  have hcurrent : event.found.contentCache uri = replay contentWrite front uri := by
    rw [hfollows.content]
  have hwritten := written_of_pullOf hpull hreacts
  refine ⟨hcurrent, ?_⟩
  rcases hdiff : event.found.diffCache uri with _ | diff
  · rw [hdiff] at hwritten
    exact .inl hwritten
  · right
    rw [hdiff] at hwritten
    rw [hfollows.diff] at hdiff
    -- The cache holds what the last entry about the document wrote.
    obtain ⟨earlier, computed, since, rfl, hwrite, hsince⟩ := replay_eq_some_iff.mp hdiff
    obtain ⟨hearlier, hcomputes⟩ := hrecorded earlier computed (since ++ event :: back) (by
      rw [htrace, List.append_assoc]
      rfl)
    obtain ⟨content, hcause, hcontent, hengine⟩ := computed_of_diffWrite hcomputes hwrite
    rw [hearlier.content] at hcontent
    refine ⟨earlier, computed, since, content, diff, rfl, hcause, hcontent, hengine, hwritten,
      hsince, ?_⟩
    intro huntouched
    have hsplit : earlier ++ computed :: since = (earlier ++ [computed]) ++ since := by simp
    have hcomputation : contentWrite computed uri = none := by
      rw [contentWrite, hcause]
    rw [hcurrent, hsplit, replay_untouched huntouched, replay_append_singleton, hcomputation]
    exact hcontent

def Current (ctx : Context) (now : Env) (event : Event) : Prop :=
  ∀ id uri, pullOf event = some (id, uri) →
    event.written = [respond id (.array [])] ∨
      ∃ content diff, event.found.contentCache uri = some content ∧
        diffOf ctx now event.found uri content = some diff ∧
        event.written = [respond id (.array (ctx.codeLens diff))]

def lateEdit : List (List Value) :=
  [[rootedAt "file:///ws", opening "file:///ws/a" "old"],
    [changing "file:///ws/a" "new", pulling "file:///ws/a"]]

def lateTrace : List Event :=
  ((Session.new "HEAD" "").run echo (fun _ => echoEnv) lateEdit).trace

def latePull : Event :=
  lateTrace.get ⟨4, by decide +kernel⟩

def lensTexts (written : List Value) : Option (List (Option String)) :=
  (written.head?.bind fun msg => (msg.get "result").bind Value.asArray).map
    (List.map Value.asStr)

theorem lateEdit_stale :
    ¬∀ (ctx : Context) (now : Env) (gitRef wasmDir : String) (batches : List (List Value)),
      ∀ event ∈ ((Session.new gitRef wasmDir).run ctx (fun _ => now) batches).trace,
        Current ctx now event := by
  intro hcurrent
  have hpulled : (pullOf latePull).map Prod.snd = some "file:///ws/a" := by decide +kernel
  obtain ⟨⟨id, uri⟩, hpull, huri⟩ := Option.map_eq_some_iff.mp hpulled
  have hanswer : lensTexts latePull.written = some [some "old"] := by decide +kernel
  have hcontent : latePull.found.contentCache "file:///ws/a" = some "new" := by decide +kernel
  have hengine : (diffOf echo echoEnv latePull.found "file:///ws/a" "new").bind Value.asStr =
      some "new" := by decide +kernel
  rcases hcurrent echo echoEnv "HEAD" "" lateEdit latePull (List.get_mem ..) id uri hpull with
    hempty | ⟨content, diff, hcached, hdiff, hlenses⟩
  · rw [hempty] at hanswer
    cases hanswer
  · rw [← huri] at hcontent hengine
    cases hcontent.symm.trans hcached
    rw [hdiff, Option.bind_some] at hengine
    rw [hlenses] at hanswer
    change some [diff.asStr] = _ at hanswer
    rw [hengine] at hanswer
    simp at hanswer

theorem lateEdit_answer :
    ∃ id earlier computed since content diff,
      lateTrace.take 4 = earlier ++ computed :: since ∧
        computed.cause = .computation "file:///ws/a" (some (content, diff)) ∧
        latePull.written = [respond id (.array (echo.codeLens diff))] := by
  have hpulled : (pullOf latePull).map Prod.snd = some "file:///ws/a" := by decide +kernel
  obtain ⟨⟨id, uri⟩, hpull, rfl⟩ := Option.map_eq_some_iff.mp hpulled
  have hsplit : lateTrace = lateTrace.take 4 ++ latePull :: lateTrace.drop 5 := by
    rw [latePull, List.get_eq_getElem, List.getElem_cons_drop, List.take_append_drop]
  obtain ⟨-, hempty | ⟨earlier, computed, since, content, diff, htake, hcause, -, -, hwritten, -⟩⟩ :=
    pull_answer echo (fun _ => echoEnv) "HEAD" "" lateEdit _ _ latePull id _ hsplit hpull
  · have hanswer : lensTexts latePull.written = some [some "old"] := by decide +kernel
    rw [hempty] at hanswer
    cases hanswer
  · exact ⟨id, earlier, computed, since, content, diff, htake, hcause, hwritten⟩

end IntentumdiffLsp.Lenses
