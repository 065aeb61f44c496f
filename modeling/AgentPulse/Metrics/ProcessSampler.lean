import AgentPulse.SharedState
import Mathlib.Algebra.Ring.Int.Defs
import Mathlib.Data.List.Induction
import Mathlib.Data.List.Sort
import Mathlib.Data.Prod.Lex

/-!
# The busiest processes

`ProcessSampler::top` of `process_sampler.cpp`. A percentage is the change of a
process's task time since the last call that listed processes, and a call
returns the processes that come first by percentage, then by memory.

## Implementation notes

The quotient that makes a percentage of two `double`s is a parameter. It is
taken of an interval above zero only, so it is never NaN and the percentages are
ordered. `std::partial_sort` is a parameter too: it leaves open which of several
equal processes it keeps.
-/

namespace AgentPulse

/-- What `proc_pidinfo` and `proc_name` tell of a process. -/
structure TaskInfo where
  totalUser : UInt64
  totalSystem : UInt64
  residentSize : UInt64
  name : Option Bytes

/-- What a call meets: the results of the two calls of `proc_listpids`, the pids
of its buffer, each with what is told of it, and the clock. -/
structure Listing where
  needed : Int
  got : Int
  buffer : List (Int32 × Option TaskInfo)
  now : Int

/-- The members of `ProcessSampler`. -/
structure ProcessSampler where
  prevTimeNs : Int32 → Option UInt64 := fun _ => none
  prevSample : Int := 0
  havePrev : Bool := false

def TaskInfo.totalNs (ti : TaskInfo) : UInt64 := ti.totalUser + ti.totalSystem

def TaskInfo.shownName (ti : TaskInfo) (pid : Int32) : Bytes :=
  ti.name.getD (text "pid " ++ intText pid.toInt)

/-- The first `got / sizeof(pid_t)` pids of the buffer. -/
def Listing.entries (x : Listing) : List (Int32 × Option TaskInfo) :=
  x.buffer.take (x.got / 4).toNat

namespace ProcessSampler

variable {V : Type}

section Model

variable [LinearOrder V] [Zero V] (percent : UInt64 → Int → V)

/-- `info.cpu_percent` of a pid with this task time. -/
def cpuPercent (s : ProcessSampler) (now : Int) (pid : Int32) (totalNs : UInt64) : V :=
  let intervalNs := if s.havePrev then now - s.prevSample else 0
  if s.havePrev = true ∧ 0 < intervalNs then
    match s.prevTimeNs pid with
    | some prev => if prev ≤ totalNs then percent (totalNs - prev) intervalNs else 0
    | none => 0
  else 0

/-- The body of the loop: `cur_time_ns` and `procs` after a pid. A pid that is
gone or not permitted is passed over. -/
def visit (s : ProcessSampler) (now : Int)
    (found : (Int32 → Option UInt64) × List (ProcInfo V)) (entry : Int32 × Option TaskInfo) :
    (Int32 → Option UInt64) × List (ProcInfo V) :=
  if entry.1 ≤ 0 then found
  else
    match entry.2 with
    | none => found
    | some ti =>
        (Function.update found.1 entry.1 (some ti.totalNs),
          found.2 ++ [{ pid := entry.1
                        name := ti.shownName entry.1
                        cpuPercent := s.cpuPercent percent now entry.1 ti.totalNs
                        rssBytes := ti.residentSize }])

/-- The comparator: `a` comes before `b`. -/
def before (a b : ProcInfo V) : Bool :=
  if a.cpuPercent ≠ b.cpuPercent then b.cpuPercent < a.cpuPercent else b.rssBytes < a.rssBytes

/-- `ProcessSampler::top`. -/
def top (sort : ℕ → List (ProcInfo V) → List (ProcInfo V)) (s : ProcessSampler) (x : Listing)
    (n : Int32) : ProcessSampler × List (ProcInfo V) :=
  if x.needed ≤ 0 then (s, [])
  else if x.got ≤ 0 then (s, [])
  else
    let found := x.entries.foldl (s.visit percent x.now) (fun _ => none, [])
    let keep := min found.2.length (if n < 0 then 0 else n).toInt.toNat
    ({ prevTimeNs := found.1, prevSample := x.now, havePrev := true },
      (sort keep found.2).take keep)

/-- The sampler after a sequence of calls. -/
def after (sort : ℕ → List (ProcInfo V) → List (ProcInfo V)) (history : List (Listing × Int32)) :
    ProcessSampler :=
  history.foldl (fun s call => (s.top percent sort call.1 call.2).1) {}

end Model

/-- What `std::partial_sort` promises of the first `k` places. -/
structure PartialSort {α : Type} (before : α → α → Bool) (sort : ℕ → List α → List α) : Prop where
  perm : ∀ k l, (sort k l).Perm l
  sorted : ∀ k l, k ≤ l.length → ((sort k l).take k).Pairwise fun a b => before b a = false
  rest : ∀ k l, k ≤ l.length →
    ∀ a ∈ (sort k l).take k, ∀ b ∈ (sort k l).drop k, before b a = false

section Order

variable [LinearOrder V] {a b : ProcInfo V}

/-- Percentage first, then memory. -/
def key (p : ProcInfo V) : V ×ₗ ℕ := toLex (p.cpuPercent, p.rssBytes.toNat)

theorem before_iff : before a b = true ↔ key b < key a := by
  rw [key, key, Prod.Lex.toLex_lt_toLex, before]
  by_cases hcpu : a.cpuPercent = b.cpuPercent
  · rw [if_neg (not_not.mpr hcpu), hcpu, decide_eq_true_iff, UInt64.lt_iff_toNat_lt]
    simp
  · rw [if_pos hcpu, decide_eq_true_iff]
    simp [Ne.symm hcpu]

theorem before_eq_false_iff : before b a = false ↔ key b ≤ key a := by
  rw [Bool.eq_false_iff, ne_eq, before_iff, not_lt]

theorem cpuPercent_le (h : before b a = false) : b.cpuPercent ≤ a.cpuPercent := by
  have hkey : key b ≤ key a := before_eq_false_iff.mp h
  rw [key, key, Prod.Lex.toLex_le_toLex] at hkey
  obtain hlt | ⟨heq, -⟩ := hkey
  · exact hlt.le
  · exact heq.le

/-- The first of the sorted places has the highest percentage. -/
theorem cpuPercent_le_head {kept others : List (ProcInfo V)}
    (hsorted : kept.Pairwise fun a b => before b a = false)
    (hrest : ∀ a ∈ kept, ∀ b ∈ others, before b a = false) (ha : a ∈ kept.head?)
    (hb : b ∈ kept ++ others) : b.cpuPercent ≤ a.cpuPercent := by
  cases kept with
  | nil => cases ha
  | cons first kept =>
      obtain rfl := Option.some.inj ha
      obtain hb | hb := List.mem_append.mp hb
      · obtain rfl | hb := List.mem_cons.mp hb
        · exact le_rfl
        · exact cpuPercent_le (List.rel_of_pairwise_cons hsorted hb)
      · exact cpuPercent_le (hrest _ List.mem_cons_self b hb)

/-- The comparator is a strict weak order, so a sort by it does what
`std::partial_sort` promises. -/
theorem partialSort_insertionSort :
    PartialSort (before (V := V)) fun _ l => l.insertionSort fun a b => before b a = false := by
  have htotal : Std.Total fun a b : ProcInfo V => before b a = false := by
    refine ⟨fun a b => ?_⟩
    simp only [before_eq_false_iff]
    exact le_total _ _
  have htrans : IsTrans (ProcInfo V) fun a b => before b a = false := by
    refine ⟨fun a b c => ?_⟩
    simp only [before_eq_false_iff]
    exact fun hab hbc => hbc.trans hab
  have hsorted : ∀ l : List (ProcInfo V),
      (l.insertionSort fun a b => before b a = false).Pairwise fun a b => before b a = false :=
    fun l => List.pairwise_insertionSort _ l
  refine ⟨fun _ l => List.perm_insertionSort _ l, fun k l _ => ?_, fun k l _ a ha b hb => ?_⟩
  · exact (hsorted l).sublist (List.take_sublist _ _)
  · have hparts := hsorted l
    rw [← List.take_append_drop k (l.insertionSort fun a b => before b a = false)] at hparts
    exact (List.pairwise_append.mp hparts).2.2 a ha b hb

end Order

section Calls

/-- A call that lists processes. -/
def Lists (x : Listing) : Prop := 0 < x.needed ∧ 0 < x.got

instance (x : Listing) : Decidable (Lists x) := inferInstanceAs (Decidable (_ ∧ _))

/-- The processes that a call can read, in the order of their pids. -/
def readable (x : Listing) : List (Int32 × TaskInfo) :=
  x.entries.filterMap fun entry =>
    if entry.1 ≤ 0 then none else entry.2.map fun ti => (entry.1, ti)

/-- The task time of a pid in such a list; the last entry counts. -/
def timeOf (read : List (Int32 × TaskInfo)) (pid : Int32) : Option UInt64 :=
  (read.reverse.find? fun p => p.1 = pid).map fun p => p.2.totalNs

/-- The last call that listed processes. -/
def lastListing (history : List (Listing × Int32)) : Option Listing :=
  (history.map Prod.fst).reverse.find? fun x => Lists x

variable [Zero V] (percent : UInt64 → Int → V)

/-- The percentage since an earlier call, if it saw the pid, its task time did
not go back and the clock moved on. -/
def usage (earlier : Option Listing) (now : Int) (pid : Int32) (ti : TaskInfo) : V :=
  match earlier with
  | none => 0
  | some earlier =>
      match timeOf (readable earlier) pid with
      | none => 0
      | some prev =>
          if prev ≤ ti.totalNs ∧ earlier.now < now then
            percent (ti.totalNs - prev) (now - earlier.now)
          else 0

/-- A process as it is shown. -/
def shown (cpu : Int32 → TaskInfo → V) (p : Int32 × TaskInfo) : ProcInfo V where
  pid := p.1
  name := p.2.shownName p.1
  cpuPercent := cpu p.1 p.2
  rssBytes := p.2.residentSize

variable {percent} {sort : ℕ → List (ProcInfo V) → List (ProcInfo V)}

theorem timeOf_snoc (read : List (Int32 × TaskInfo)) (pid : Int32) (ti : TaskInfo) :
    timeOf (read ++ [(pid, ti)]) = Function.update (timeOf read) pid (some ti.totalNs) := by
  funext other
  rw [timeOf, List.reverse_append, List.reverse_singleton, List.singleton_append]
  by_cases heq : other = pid
  · subst heq
    rw [Function.update_self, List.find?_cons_of_pos (by simp)]
    rfl
  · rw [Function.update_of_ne heq, List.find?_cons_of_neg (by simpa using Ne.symm heq)]
    rfl

/-- The loop reads the task times and the processes of the call. -/
theorem foldl_visit (s : ProcessSampler) (x : Listing) :
    x.entries.foldl (s.visit percent x.now) (fun _ => none, []) =
      (timeOf (readable x),
        (readable x).map (shown fun pid ti => s.cpuPercent percent x.now pid ti.totalNs)) := by
  rw [readable]
  induction x.entries using List.reverseRecOn with
  | nil => rfl
  | append_singleton entries entry ih =>
      obtain ⟨pid, info⟩ := entry
      rw [List.foldl_append, ih, List.filterMap_append]
      by_cases hpid : pid ≤ 0
      · simp [visit, hpid]
      · cases info with
        | none => simp [visit, hpid]
        | some ti => simp [visit, hpid, timeOf_snoc, shown]

/-- A call that lists processes leaves its own clock and task times behind. -/
theorem top_lists (s : ProcessSampler) {x : Listing} (n : Int32) (h : Lists x) :
    (s.top percent sort x n).1 =
      { prevTimeNs := timeOf (readable x), prevSample := x.now, havePrev := true } := by
  rw [top, if_neg (not_le.mpr h.1), if_neg (not_le.mpr h.2), foldl_visit]

/-- The other calls change nothing and return nothing. -/
theorem top_lists_not (s : ProcessSampler) {x : Listing} (n : Int32) (h : ¬ Lists x) :
    s.top percent sort x n = (s, []) := by
  rw [top]
  by_cases hneeded : x.needed ≤ 0
  · rw [if_pos hneeded]
  · have hgot : x.got ≤ 0 := not_lt.mp fun hgot => h ⟨not_le.mp hneeded, hgot⟩
    rw [if_neg hneeded, if_pos hgot]

/-- The sampler remembers the last call that listed processes, however many
calls failed since. -/
theorem after_eq (history : List (Listing × Int32)) :
    after percent sort history = (lastListing history).elim {} fun x =>
      { prevTimeNs := timeOf (readable x), prevSample := x.now, havePrev := true } := by
  induction history using List.reverseRecOn with
  | nil => rfl
  | append_singleton history call ih =>
      obtain ⟨x, n⟩ := call
      have hlast : lastListing (history ++ [(x, n)]) =
          if Lists x then some x else lastListing history := by
        rw [lastListing, List.map_append, List.map_singleton, List.reverse_append,
          List.reverse_singleton, List.singleton_append, List.find?_cons]
        by_cases h : Lists x
        · simp [h]
        · simp [h, lastListing]
      rw [after, List.foldl_append, List.foldl_cons, List.foldl_nil, ← after, hlast]
      by_cases h : Lists x
      · rw [if_pos h]
        exact top_lists _ n h
      · rw [if_neg h, top_lists_not _ n h]
        exact ih

/-- The percentages of a call are those since the last call that listed. -/
theorem cpuPercent_after (history : List (Listing × Int32)) (now : Int) (pid : Int32)
    (ti : TaskInfo) :
    (after percent sort history).cpuPercent percent now pid ti.totalNs =
      usage percent (lastListing history) now pid ti := by
  rw [after_eq]
  cases lastListing history with
  | none => rfl
  | some earlier =>
      simp only [Option.elim_some, cpuPercent, usage, if_true, true_and, Int.sub_pos]
      cases timeOf (readable earlier) pid with
      | none => simp
      | some prev =>
          by_cases hclock : earlier.now < now
          · by_cases htime : prev ≤ ti.totalNs <;> simp [hclock, htime]
          · simp [hclock]

/-- A count below zero is as good as none. -/
theorem toNat_clamped (n : Int32) : (if n < 0 then 0 else n).toInt.toNat = n.toInt.toNat := by
  split_ifs with hneg
  · have hint : n.toInt < 0 := Int32.lt_iff_toInt_lt.mp hneg
    rw [Int.toNat_of_nonpos hint.le]
    rfl
  · rfl

/-- After any calls, `top` returns nothing and changes nothing if the listing
fails. Otherwise it returns the processes it can read, each with the percentage since the last call
that listed processes, as far as `n` admits: sorted, and none of those left out
comes before any of them. So the first one, which an alert names, has the
highest percentage of all. -/
theorem top_processes [LinearOrder V] (percent : UInt64 → Int → V)
    (hsort : PartialSort before sort)
    (history : List (Listing × Int32)) (x : Listing) (n : Int32) :
    (¬ Lists x → (after percent sort history).top percent sort x n =
      (after percent sort history, [])) ∧
    (Lists x → ∃ kept others, ((after percent sort history).top percent sort x n).2 = kept ∧
      (kept ++ others).Perm
        ((readable x).map (shown (usage percent (lastListing history) x.now))) ∧
      kept.length = min (readable x).length n.toInt.toNat ∧
      (kept.Pairwise fun a b => before b a = false) ∧
      (∀ a ∈ kept, ∀ b ∈ others, before b a = false) ∧
      ∀ a ∈ kept.head?, ∀ p ∈ readable x,
        usage percent (lastListing history) x.now p.1 p.2 ≤ a.cpuPercent) := by
  refine ⟨fun h => top_lists_not _ n h, fun h => ?_⟩
  have hshown : (shown fun pid ti =>
      (after percent sort history).cpuPercent percent x.now pid ti.totalNs) =
        shown (usage percent (lastListing history) x.now) := by
    simp only [cpuPercent_after]
  set procs : List (ProcInfo V) :=
    (readable x).map (shown (usage percent (lastListing history) x.now)) with hprocs
  set keep : ℕ := min procs.length n.toInt.toNat with hkeep
  have htop : ((after percent sort history).top percent sort x n).2 =
      (sort keep procs).take keep := by
    rw [top, if_neg (not_le.mpr h.1), if_neg (not_le.mpr h.2), foldl_visit, hshown,
      toNat_clamped]
  have hle : keep ≤ procs.length := min_le_left _ _
  have hperm : ((sort keep procs).take keep ++ (sort keep procs).drop keep).Perm procs := by
    rw [List.take_append_drop]
    exact hsort.perm keep procs
  refine ⟨_, (sort keep procs).drop keep, htop, hperm, ?_, hsort.sorted keep procs hle,
    hsort.rest keep procs hle, ?_⟩
  · rw [List.length_take, (hsort.perm keep procs).length_eq, hkeep, hprocs, List.length_map]
    omega
  · intro a ha p hp
    have hmem : shown (usage percent (lastListing history) x.now) p ∈
        (sort keep procs).take keep ++ (sort keep procs).drop keep :=
      hperm.mem_iff.mpr (List.mem_map.mpr ⟨p, hp, rfl⟩)
    exact cpuPercent_le_head (hsort.sorted keep procs hle) (hsort.rest keep procs hle) ha hmem

end Calls

section Example

/-- A process that has run for so long, of this size. -/
def task (ns size : UInt64) (name : Option Bytes) : Option TaskInfo :=
  some { totalUser := ns, totalSystem := 0, residentSize := size, name := name }

/-- Two processes, of which the first one has no name. -/
def firstListing : Listing where
  needed := 8
  got := 8
  buffer := [(7, task 100 64 none), (9, task 50 32 (some (text "make"))), (0, none)]
  now := 0

def brokenListing : Listing := { firstListing with needed := 0, now := 500 }

/-- Later a third one is there, and one that may not be read. -/
def laterListing : Listing where
  needed := 16
  got := 20
  buffer := [(0, task 1 1 none), (7, task 350 64 none), (8, none),
    (9, task 550 32 (some (text "make"))), (12, task 9000 16 (some (text "ld"))), (0, none)]
  now := 1000

def wholePercent (ns : UInt64) (intervalNs : Int) : ℤ := 100 * ns.toNat / intervalNs

/-- The sort of the example. -/
def wholeSort (_ : ℕ) (l : List (ProcInfo ℤ)) : List (ProcInfo ℤ) :=
  l.insertionSort fun a b => before b a = false

/-- The call that failed does not shorten the interval. -/
theorem top_processes_later :
    let sampler := after wholePercent wholeSort [(firstListing, 5), (brokenListing, 5)]
    ∃ kept, (sampler.top wholePercent wholeSort laterListing 2).2 = kept ∧
      kept = [⟨9, text "make", 50, 32⟩, ⟨7, text "pid 7", 25, 64⟩] ∧
      ∀ p ∈ readable laterListing,
        usage wholePercent (some firstListing) laterListing.now p.1 p.2 ≤ 50 := by
  intro sampler
  have hsort : PartialSort before wholeSort := partialSort_insertionSort
  obtain ⟨kept, others, htop, -, -, -, -, hfirst⟩ := (top_processes wholePercent hsort
    [(firstListing, 5), (brokenListing, 5)] laterListing 2).2 (by decide)
  have hkept : kept = [⟨9, text "make", 50, 32⟩, ⟨7, text "pid 7", 25, 64⟩] := by
    rw [← htop]
    decide +kernel
  refine ⟨kept, htop, hkept, fun p hp => ?_⟩
  have hlast : lastListing [(firstListing, 5), (brokenListing, 5)] = some firstListing := rfl
  rw [hlast] at hfirst
  exact hfirst ⟨9, text "make", 50, 32⟩ (by rw [hkept]; rfl) p hp

end Example

end ProcessSampler

end AgentPulse
