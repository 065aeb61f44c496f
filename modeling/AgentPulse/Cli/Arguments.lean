import AgentPulse.Numerals

/-!
# The command line of apctl

`main` of `cli/src/main.cpp`: the loop over the arguments. What it accepts can
be written down again, and nothing else is accepted.

## Implementation notes

`std::atoi` is a parameter, since it is undefined for a value outside `int`. The
first byte of an empty argument is a NUL, which is no digit.
-/

namespace AgentPulse.Apctl

/-- The variables that the loop sets. -/
structure Options where
  socketPath : Bytes
  command : Bytes := text "status"
  watch : Bool := false
  watchSeconds : Int := 2
  deriving DecidableEq

/-- The end of the loop, or a return with the status after `usage()`. -/
inductive Parsed where
  | options (o : Options)
  | usage (status : Int)
  deriving DecidableEq

def startsDigit (arg : Bytes) : Bool := arg.head?.any isDigit

def startsDash (arg : Bytes) : Bool := arg.head? = some 45

section Model

variable (atoi : Bytes → Int)

/-- `watch_seconds` from an argument. -/
def seconds (arg : Bytes) : Int := if atoi arg ≤ 0 then 2 else atoi arg

/-- The loop over the arguments. -/
def parseArgs (o : Options) : List Bytes → Parsed
  | [] => .options o
  | arg :: rest =>
      if arg = text "--help" ∨ arg = text "-h" then .usage 0
      else if arg = text "--socket" then
        match rest with
        | [] => .usage 2
        | path :: rest => parseArgs { o with socketPath := path } rest
      else if arg = text "--watch" then
        match rest with
        | [] => .options { o with watch := true }
        | next :: rest' =>
            if startsDigit next then
              parseArgs { o with watch := true, watchSeconds := seconds atoi next } rest'
            else parseArgs { o with watch := true } (next :: rest')
      else if startsDash arg then .usage 2
      else parseArgs { o with command := arg } rest

end Model

/-- The command that is sent; `--watch` repeats `status` whatever the command. -/
def Options.request (o : Options) : Bytes := if o.watch then text "status" else o.command

/-- The arguments for some options. -/
def Options.args (o : Options) : List Bytes :=
  text "--socket" :: o.socketPath ::
    (if o.watch then [text "--watch", intText o.watchSeconds, o.command] else [o.command])

/-- What `std::atoi` promises: an `int`, and the value of a numeral of one. -/
structure Documented (atoi : Bytes → Int) : Prop where
  lt : ∀ arg, atoi arg < 2 ^ 31
  intText : ∀ i : Int, 0 ≤ i → i < 2 ^ 31 → atoi (intText i) = i

/-- The options that some arguments give. -/
structure Options.Valid (o : Options) : Prop where
  command : startsDash o.command = false
  positive : 0 < o.watchSeconds
  fits : o.watchSeconds < 2 ^ 31
  unwatched : o.watch = false → o.watchSeconds = 2

variable {atoi : Bytes → Int} {o o' : Options} {args more : List Bytes}

theorem valid_default (path : Bytes) : ({ socketPath := path } : Options).Valid :=
  ⟨rfl, by norm_num, by norm_num, fun _ => rfl⟩

theorem seconds_bounds (h : Documented atoi) (arg : Bytes) :
    0 < seconds atoi arg ∧ seconds atoi arg < 2 ^ 31 := by
  have hlt := h.lt arg
  rw [seconds]
  split_ifs <;> omega

/-- Every argument keeps the options valid. -/
theorem parseArgs_valid (h : Documented atoi) (ho : o.Valid)
    (hparse : parseArgs atoi o args = .options o') : o'.Valid := by
  fun_induction parseArgs atoi o args with
  | case1 o =>
      cases hparse
      exact ho
  | case2 => cases hparse
  | case3 => cases hparse
  | case4 o path rest _ ih => exact ih ⟨ho.command, ho.positive, ho.fits, ho.unwatched⟩ hparse
  | case5 o =>
      cases hparse
      exact ⟨ho.command, ho.positive, ho.fits, fun h => Bool.noConfusion h⟩
  | case6 o next rest _ _ _ ih =>
      obtain ⟨hpositive, hfits⟩ := seconds_bounds h next
      exact ih ⟨ho.command, hpositive, hfits, fun h => Bool.noConfusion h⟩ hparse
  | case7 o next rest _ _ _ ih =>
      exact ih ⟨ho.command, ho.positive, ho.fits, fun h => Bool.noConfusion h⟩ hparse
  | case8 => cases hparse
  | case9 o command rest _ _ _ hdash ih =>
      exact ih ⟨Bool.eq_false_iff.mpr hdash, ho.positive, ho.fits, ho.unwatched⟩ hparse

theorem parseArgs_socket (o : Options) (path : Bytes) (rest : List Bytes) :
    parseArgs atoi o (text "--socket" :: path :: rest) =
      parseArgs atoi { o with socketPath := path } rest := by
  rw [parseArgs, if_neg (by decide), if_pos rfl]

theorem parseArgs_watch (o : Options) {next : Bytes} (rest : List Bytes) :
    parseArgs atoi o (text "--watch" :: next :: rest) =
      if startsDigit next then
        parseArgs atoi { o with watch := true, watchSeconds := seconds atoi next } rest
      else parseArgs atoi { o with watch := true } (next :: rest) := by
  rw [parseArgs, if_neg (by decide), if_neg (by decide), if_pos rfl]

theorem parseArgs_command (o : Options) {command : Bytes} (rest : List Bytes)
    (h : startsDash command = false) :
    parseArgs atoi o (command :: rest) = parseArgs atoi { o with command := command } rest := by
  have hne : ∀ option : Bytes, startsDash option = true → command ≠ option := by
    rintro option hoption rfl
    rw [hoption] at h
    cases h
  have hhelp : ¬ (command = text "--help" ∨ command = text "-h") :=
    not_or.mpr ⟨hne _ (by decide), hne _ (by decide)⟩
  have hsocket : command ≠ text "--socket" := hne _ (by decide)
  have hwatch : command ≠ text "--watch" := hne _ (by decide)
  rw [parseArgs.eq_def]
  simp only [if_neg hhelp, if_neg hsocket, if_neg hwatch, h, Bool.false_eq_true, if_false]

/-- More arguments act on what those before them have made, unless the first of
them is a number that belongs to `--watch`. -/
theorem parseArgs_append (hparse : parseArgs atoi o args = .options o')
    (hend : args.getLast? = some (text "--watch") → ∀ next ∈ more.head?, startsDigit next = false) :
    parseArgs atoi o (args ++ more) = parseArgs atoi o' more := by
  have hrest : ∀ {arg : Bytes} {rest : List Bytes}, ((arg :: rest).getLast? =
      some (text "--watch") → ∀ next ∈ more.head?, startsDigit next = false) →
        rest.getLast? = some (text "--watch") → ∀ next ∈ more.head?, startsDigit next = false := by
    intro arg rest hend hlast
    exact hend (by rw [List.getLast?_cons, hlast]; rfl)
  fun_induction parseArgs atoi o args with
  | case1 o =>
      cases hparse
      rfl
  | case2 => cases hparse
  | case3 => cases hparse
  | case4 o path rest _ ih =>
      rw [List.cons_append, List.cons_append, parseArgs_socket]
      exact ih hparse (hrest (hrest hend))
  | case5 o =>
      cases hparse
      cases more with
      | nil =>
          rw [List.append_nil, parseArgs, parseArgs, if_neg (by decide), if_neg (by decide),
            if_pos rfl]
      | cons next more =>
          have hdigit : startsDigit next = false := hend rfl next rfl
          rw [List.singleton_append, parseArgs_watch, if_neg (Bool.eq_false_iff.mp hdigit)]
  | case6 o next rest hdigit _ _ ih =>
      rw [List.cons_append, List.cons_append, parseArgs_watch, if_pos hdigit]
      exact ih hparse (hrest (hrest hend))
  | case7 o next rest hdigit _ _ ih =>
      rw [List.cons_append, List.cons_append, parseArgs_watch, if_neg hdigit]
      exact ih hparse (hrest hend)
  | case8 => cases hparse
  | case9 o command rest _ _ _ hdash ih =>
      rw [List.cons_append, parseArgs_command o _ (Bool.eq_false_iff.mpr hdash)]
      exact ih hparse (hrest hend)

/-- The text of a number of seconds starts with a digit. -/
theorem startsDigit_intText {i : Int} (h : 0 < i) : startsDigit (intText i) = true := by
  have htext : intText i = text i.toNat.repr := by
    rw [intText, Int.toString_eq_repr, Int.repr_eq_if, if_pos h.le]
  obtain ⟨hne, hdigits⟩ := (isNumeral_repr i.toNat).1
  obtain ⟨d, rest, hs⟩ := List.exists_cons_of_ne_nil hne
  rw [htext, startsDigit, hs]
  exact hdigits d (by rw [hs]; exact List.mem_cons_self)

/-- Valid options are read back from their arguments, whatever was set before
them. -/
theorem parseArgs_args (h : Documented atoi) (ho : o.Valid) (path : Bytes) :
    parseArgs atoi { socketPath := path } o.args = .options o := by
  obtain ⟨socketPath, command, watch, watchSeconds⟩ := o
  cases watch with
  | false =>
      obtain rfl : watchSeconds = 2 := ho.unwatched rfl
      rw [Options.args, parseArgs_socket]
      simp only [Bool.false_eq_true, if_false]
      rw [parseArgs_command _ _ ho.command, parseArgs]
  | true =>
      have hvalue : seconds atoi (intText watchSeconds) = watchSeconds := by
        rw [seconds, h.intText _ ho.positive.le ho.fits, if_neg (not_le.mpr ho.positive)]
      rw [Options.args, parseArgs_socket]
      simp only [if_true]
      rw [parseArgs_watch, if_pos (startsDigit_intText ho.positive), hvalue,
        parseArgs_command _ _ ho.command, parseArgs]

/-- `apctl` accepts some arguments with given options exactly if the command is
no option and the seconds are a positive `int`, 2 without `--watch`; it then
accepts the arguments that spell them out. Accepted arguments may be followed by
others, which act on the options so far. -/
theorem arguments_accepted (hatoi : Documented atoi) (path : Bytes) (o : Options) :
    ((∃ args, parseArgs atoi { socketPath := path } args = .options o) ↔ o.Valid) ∧
    (o.Valid → parseArgs atoi { socketPath := path } o.args = .options o) ∧
    ∀ args more, parseArgs atoi { socketPath := path } args = .options o →
      (args.getLast? = some (text "--watch") → ∀ next ∈ more.head?, startsDigit next = false) →
        parseArgs atoi { socketPath := path } (args ++ more) = parseArgs atoi o more := by
  refine ⟨⟨?_, fun ho => ⟨o.args, parseArgs_args hatoi ho path⟩⟩,
    fun ho => parseArgs_args hatoi ho path, fun args more hparse hend =>
      parseArgs_append hparse hend⟩
  rintro ⟨args, hparse⟩
  exact parseArgs_valid hatoi (valid_default path) hparse

/-- `std::atoi` where it is defined: 0 for no digits. -/
def wholeAtoi (arg : Bytes) : Int := (stoi arg).getD 0

theorem wholeAtoi_documented : Documented wholeAtoi := by
  refine ⟨fun arg => ?_, fun i hi hlt => ?_⟩
  · rw [wholeAtoi]
    cases hstoi : stoi arg with
    | none => exact Int.zero_lt_one.trans (by decide)
    | some i =>
        simp only [stoi, Option.ite_none_left_eq_some, Option.ite_none_right_eq_some,
          Option.some.injEq] at hstoi
        obtain ⟨-, hfits, rfl⟩ := hstoi
        exact hfits.2
  · rw [wholeAtoi, stoi_intText, if_pos ⟨by omega, hlt⟩]
    rfl

/-- The arguments `--watch 5 jobs` and a socket. -/
theorem arguments_accepted_watch :
    let watched : Options :=
      { socketPath := text "a.sock", command := text "jobs", watch := true, watchSeconds := 5 }
    parseArgs wholeAtoi { socketPath := text "a.sock" }
        [text "--watch", text "5", text "jobs", text "--socket", text "b.sock"] =
      .options { watched with socketPath := text "b.sock" } ∧
    watched.Valid ∧ watched.request = text "status" := by
  intro watched
  have hfirst : parseArgs wholeAtoi { socketPath := text "a.sock" }
      [text "--watch", text "5", text "jobs"] = .options watched := by decide
  obtain ⟨hiff, -, happend⟩ :=
    arguments_accepted wholeAtoi_documented (text "a.sock") watched
  refine ⟨?_, hiff.mp ⟨_, hfirst⟩, rfl⟩
  exact happend _ [text "--socket", text "b.sock"] hfirst (fun h => absurd h (by decide))

end AgentPulse.Apctl
