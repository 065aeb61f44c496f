import AgentPulse.Jobs.Scheduler
import AgentPulse.Lib.FirstSeen
import AgentPulse.Lib.KeyedList

/-!
# The notifications of the app

`StatusStore.notifyNewAlerts` posts an alert unless its `id` has been seen
before, and the `id` is the second, the rule and the kind. Of the alerts with
one `id` the app posts the first it polls and no other.

## Implementation notes

The alerts carry the number of their `add_alert` call, which nothing reads but
the statements. The equality of Swift strings, which is canonical equivalence,
is that of an arbitrary type the bytes are mapped to. Polls may be applied in
any order.
-/

namespace AgentPulse.StatusStore

variable {V S : Type} {α : Type} [DecidableEq S]

/-- `AlertInfo.id`. -/
def alertId (str : Bytes → S) (a : AlertInfo V) : S :=
  str (intText a.ts ++ text "-" ++ a.ruleName ++ text "-" ++ a.kind.toText)

/-- A call of `Notifier.post`, with the element it is about. -/
structure Post (α : Type) where
  about : α
  title : Bytes
  body : Bytes
  deriving DecidableEq

/-- The members of `StatusStore` that decide what is posted, and what was posted. -/
structure Notified (α S : Type) where
  seededAlerts : Bool := false
  seenAlertIDs : Finset S := ∅
  posts : List (Post α) := []

/-- The post about an alert. -/
def post (info : α → AlertInfo V) (a : α) : Post α where
  about := a
  title := text "AgentPulse: " ++ (info a).ruleName
  body := if (info a).attribution = [] then (info a).message
    else (info a).message ++ text "\n" ++ (info a).attribution

/-- Whether an alert is worth a notification. -/
def notifiable (info : α → AlertInfo V) (a : α) : Bool :=
  (info a).notify && decide ((info a).kind = .firing)

/-- The body of the loop, for one alert. -/
def notifyAlert (str : Bytes → S) (info : α → AlertInfo V) (st : Notified α S) (a : α) :
    Notified α S :=
  if alertId str (info a) ∈ st.seenAlertIDs then st
  else
    { st with
      seenAlertIDs := insert (alertId str (info a)) st.seenAlertIDs
      posts := if notifiable info a then st.posts ++ [post info a] else st.posts }

/-- `notifyNewAlerts`. -/
def notifyNewAlerts (str : Bytes → S) (info : α → AlertInfo V) (st : Notified α S)
    (alerts : List α) : Notified α S :=
  if st.seededAlerts then alerts.foldl (notifyAlert str info) st
  else
    { st with
      seenAlertIDs := alerts.foldl (fun seen a => insert (alertId str (info a)) seen) st.seenAlertIDs
      seededAlerts := true }

/-- The app after a sequence of polled lists. -/
def afterPolls (str : Bytes → S) (info : α → AlertInfo V) (polls : List (List α)) : Notified α S :=
  polls.foldl (notifyNewAlerts str info) {}

/-- An alert with the number of the `add_alert` call that added it. -/
structure AddedAlert (V : Type) where
  call : ℕ
  alert : AlertInfo V
  deriving DecidableEq

/-- The cap of both callers of `add_alert`. -/
def recentAlerts : Nat := 25

/-- The alerts the daemon lists after the first `n` calls. -/
def alertsAfter (history : List (AlertInfo V)) (n : ℕ) : List (AddedAlert V) :=
  ((history.zipIdx.map fun p => ⟨p.2, p.1⟩).take n).reverse.take recentAlerts

section Ring

variable {history : List (AlertInfo V)} {n i : ℕ} {a : AddedAlert V}

/-- The ring of the last alerts, newest first. -/
theorem foldl_addAlert (cap : Nat) (alerts : List (AlertInfo V)) :
    alerts.foldl (addAlert cap) [] = alerts.reverse.take cap := by
  induction alerts using List.reverseRecOn with
  | nil => simp
  | append_singleton alerts a ih =>
      rw [List.foldl_append, ih, List.foldl_cons, List.foldl_nil, addAlert, List.reverse_append,
        List.reverse_singleton, List.singleton_append]
      cases cap with
      | zero => simp
      | succ cap => simp [List.take_succ_cons, List.take_take]

/-- Without the numbers the list is the one `add_alert` keeps. -/
theorem alertsAfter_alert :
    (alertsAfter history n).map AddedAlert.alert =
      (history.take n).foldl (addAlert recentAlerts) [] := by
  have hhistory : (history.zipIdx.map fun p => (⟨p.2, p.1⟩ : AddedAlert V)).map
      AddedAlert.alert = history := by
    rw [List.map_map]
    exact List.zipIdx_map_fst 0 history
  rw [foldl_addAlert, alertsAfter, List.map_take, List.map_reverse, List.map_take, hhistory]

/-- A listed alert is the one its call added. -/
theorem getElem?_of_mem_alertsAfter (h : a ∈ alertsAfter history n) :
    history[a.call]? = some a.alert := by
  have hmem := List.mem_of_mem_take (List.mem_reverse.mp (List.mem_of_mem_take h))
  obtain ⟨p, hp, rfl⟩ := List.mem_map.mp hmem
  exact List.mem_zipIdx_iff_getElem?.mp hp

end Ring

section Polls

variable (str : Bytes → S) (info : α → AlertInfo V)

/-- The loop posts the notifiable ones of the alerts whose `id` is new, and has
seen all of them. -/
theorem foldl_notifyAlert (st : Notified α S) (alerts : List α) :
    (alerts.foldl (notifyAlert str info) st).posts = st.posts ++
      ((FirstSeen.fresh (fun a => alertId str (info a)) st.seenAlertIDs alerts).filter
        (notifiable info)).map (post info) ∧
    (alerts.foldl (notifyAlert str info) st).seenAlertIDs =
      st.seenAlertIDs ∪ (alerts.map fun a => alertId str (info a)).toFinset ∧
    (alerts.foldl (notifyAlert str info) st).seededAlerts = st.seededAlerts := by
  induction alerts generalizing st with
  | nil => simp [FirstSeen.fresh]
  | cons a alerts ih =>
      obtain ⟨hposts, hseen, hseeded⟩ := ih (notifyAlert str info st a)
      rw [List.foldl_cons, hposts, hseen, hseeded, FirstSeen.fresh]
      unfold notifyAlert
      by_cases hold : alertId str (info a) ∈ st.seenAlertIDs
      · simp [hold]
      · by_cases hpost : notifiable info a = true
        · simp [hold, hpost, Finset.insert_union]
        · simp [hold, hpost, Finset.insert_union]

/-- After the first list, the polls together are one list. -/
theorem foldl_notifyNewAlerts {st : Notified α S} (hseeded : st.seededAlerts = true)
    (polls : List (List α)) :
    (polls.foldl (notifyNewAlerts str info) st).posts = st.posts ++
      ((FirstSeen.fresh (fun a => alertId str (info a)) st.seenAlertIDs polls.flatten).filter
        (notifiable info)).map (post info) := by
  induction polls generalizing st with
  | nil => simp [FirstSeen.fresh]
  | cons alerts polls ih =>
      obtain ⟨hposts, hseen, hflag⟩ := foldl_notifyAlert str info st alerts
      rw [List.foldl_cons, notifyNewAlerts, if_pos hseeded, ih (hflag.trans hseeded), hposts, hseen,
        List.flatten_cons, FirstSeen.fresh_append, List.filter_append, List.map_append,
        List.append_assoc]

theorem foldl_insert (seen : Finset S) (alerts : List α) :
    alerts.foldl (fun seen a => insert (alertId str (info a)) seen) seen =
      seen ∪ (alerts.map fun a => alertId str (info a)).toFinset := by
  induction alerts generalizing seen with
  | nil => simp
  | cons a alerts ih => simp [ih, Finset.insert_union]

/-- What is posted over all polls. -/
theorem afterPolls_posts (first : List α) (later : List (List α)) :
    (afterPolls str info (first :: later)).posts =
      ((FirstSeen.fresh (fun a => alertId str (info a))
        (first.map fun a => alertId str (info a)).toFinset later.flatten).filter
          (notifiable info)).map (post info) := by
  unfold afterPolls
  rw [List.foldl_cons, foldl_notifyNewAlerts str info rfl]
  unfold notifyNewAlerts
  simp [foldl_insert]

end Polls

section PostedOnce

variable {str : Bytes → S} {history : List (AlertInfo V)} {first : ℕ} {later : List ℕ}

/-- The numbers of the calls whose alerts are posted. -/
def postedCalls (str : Bytes → S) (history : List (AlertInfo V)) (first : ℕ) (later : List ℕ) :
    List ℕ :=
  (afterPolls str AddedAlert.alert ((first :: later).map (alertsAfter history))).posts.map
    fun p => p.about.call

/-- The posted calls are those of the notifiable alerts whose `id` is new. -/
theorem postedCalls_eq :
    postedCalls str history first later =
      ((FirstSeen.fresh (fun a => alertId str a.alert)
        ((alertsAfter history first).map fun a => alertId str a.alert).toFinset
        (later.flatMap (alertsAfter history))).filter (notifiable AddedAlert.alert)).map
          AddedAlert.call := by
  unfold postedCalls
  rw [List.map_cons, afterPolls_posts, List.map_map, List.flatMap_def]
  rfl

/-- Listed alerts with one number are one alert. -/
theorem eq_of_call_eq {a b : AddedAlert V} {n m : ℕ} (ha : a ∈ alertsAfter history n)
    (hb : b ∈ alertsAfter history m) (hcall : a.call = b.call) : a = b := by
  have hget := getElem?_of_mem_alertsAfter ha
  rw [hcall, getElem?_of_mem_alertsAfter hb] at hget
  cases a
  cases b
  simp_all

/-- No alert is posted twice. -/
theorem nodup_postedCalls : (postedCalls str history first later).Nodup := by
  rw [postedCalls_eq]
  apply List.Nodup.map_on
  · intro a ha b hb hcall
    have hlisted : ∀ c ∈ (FirstSeen.fresh (fun a => alertId str a.alert)
        ((alertsAfter history first).map fun a => alertId str a.alert).toFinset
        (later.flatMap (alertsAfter history))).filter (notifiable AddedAlert.alert),
        ∃ n, c ∈ alertsAfter history n := by
      intro c hc
      have hfind := (FirstSeen.mem_fresh_iff.mp (List.mem_of_mem_filter hc)).2
      obtain ⟨n, _, hn⟩ := List.mem_flatMap.mp (List.mem_of_find?_eq_some hfind)
      exact ⟨n, hn⟩
    obtain ⟨n, hn⟩ := hlisted a ha
    obtain ⟨m, hm⟩ := hlisted b hb
    exact eq_of_call_eq hn hm hcall
  · exact List.Nodup.filter _ (List.Nodup.of_map _ FirstSeen.nodup_fresh)

/-- The app posts an alert exactly once if and only if the first alert it polls
with the same `id` is that alert. -/
theorem posted_once_iff (str : Bytes → S) (history : List (AlertInfo V)) (first : ℕ)
    (later : List ℕ) (i : ℕ) (alert : AlertInfo V) (hadded : history[i]? = some alert)
    (hnotify : alert.notify = true) (hfiring : alert.kind = .firing)
    (hfirst : i ∉ (alertsAfter history first).map AddedAlert.call) :
    (postedCalls str history first later).count i = 1 ↔
      ((first :: later).flatMap (alertsAfter history)).find?
        (fun a => alertId str a.alert = alertId str alert) = some ⟨i, alert⟩ := by
  have hcount : (postedCalls str history first later).count i = 1 ↔
      i ∈ postedCalls str history first later := by
    rw [nodup_postedCalls.count]
    split_ifs with hmem <;> simp [hmem]
  have hmem : i ∈ postedCalls str history first later ↔
      ⟨i, alert⟩ ∈ FirstSeen.fresh (fun a => alertId str a.alert)
        ((alertsAfter history first).map fun a => alertId str a.alert).toFinset
        (later.flatMap (alertsAfter history)) := by
    rw [postedCalls_eq, List.mem_map]
    constructor
    · rintro ⟨a, ha, rfl⟩
      have hfresh := List.mem_of_mem_filter ha
      obtain ⟨n, _, hn⟩ := List.mem_flatMap.mp
        (List.mem_of_find?_eq_some (FirstSeen.mem_fresh_iff.mp hfresh).2)
      have hget := getElem?_of_mem_alertsAfter hn
      rw [hadded] at hget
      cases Option.some.inj hget
      exact hfresh
    · intro hfresh
      exact ⟨⟨i, alert⟩, List.mem_filter.mpr ⟨hfresh, by simp [notifiable, hnotify, hfiring]⟩, rfl⟩
  rw [hcount, hmem, FirstSeen.mem_fresh_iff, List.flatMap_cons, List.find?_append]
  cases hfind : (alertsAfter history first).find?
      fun a => alertId str a.alert = alertId str alert with
  | none =>
      have hnew := KeyedList.find?_eq_none_iff.mp hfind
      rw [List.mem_toFinset, Option.none_or]
      exact and_iff_right hnew
  | some b =>
      obtain ⟨hb, hid⟩ := KeyedList.find?_mem hfind
      have hold : alertId str alert ∈
          ((alertsAfter history first).map fun a => alertId str a.alert).toFinset :=
        List.mem_toFinset.mpr (hid ▸ List.mem_map_of_mem hb)
      rw [Option.some_or]
      constructor
      · exact fun h => absurd hold h.1
      · intro heq
        cases heq
        exact absurd (List.mem_map_of_mem hb) hfirst

/-- A job whose missed run is recovered at once, and fails. -/
def recovered : Job where
  name := text "backup"
  command := text "false"
  missedRunPolicy := .runNow

/-- The alert about the failure. -/
def failureAlert : AlertInfo Int :=
  jobAlert 100 recovered.name (text "serious") (text "run failed (exit 1, after 1 attempt)") [] 1

theorem posted_once_iff_failure : (postedCalls id [failureAlert] 0 [1, 1]).count 0 = 1 :=
  (posted_once_iff id [failureAlert] 0 [1, 1] 0 failureAlert rfl rfl rfl (by decide)).mpr
    (by decide +kernel)

/-- The alert about the missed run, raised in the second of the failure, is
polled after the first list and never posted. -/
theorem missed_alert_not_posted :
    [Scheduler.missedAlert 100 recovered 40, failureAlert].all
        (fun alert => alert.notify && decide (alert.kind = .firing)) = true ∧
      0 ∉ (alertsAfter [Scheduler.missedAlert 100 recovered 40, failureAlert] 0).map
        AddedAlert.call ∧
      0 ∈ (alertsAfter [Scheduler.missedAlert 100 recovered 40, failureAlert] 2).map
        AddedAlert.call ∧
      (postedCalls id [Scheduler.missedAlert 100 recovered 40, failureAlert] 0 [2, 2]).count 0 = 0 :=
  ⟨by decide, by decide, by decide, by decide +kernel⟩

end PostedOnce

end AgentPulse.StatusStore
