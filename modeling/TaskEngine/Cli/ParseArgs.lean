import Mathlib.Data.List.TakeWhile
import TaskEngine.Cli.Options

/-!
# TaskEngine.Cli.ParseArgs — `parse_args`

`cli/options.cpp`.  The loop over the arguments is a recursion on what is left of them, and a
`return` inside it is an error of `Except`.  `std::thread::hardware_concurrency()` is a parameter.
-/

namespace TaskEngine

/-- A `std::uint64_t`, or a `std::size_t`. -/
abbrev U64 := {n : ℕ // n < 2 ^ 64}

/-! ## Numbers -/

section Numbers

/-- `std::errc`, as far as `std::from_chars` uses it. -/
inductive Errc
  | invalid_argument
  | result_out_of_range
  deriving DecidableEq

/-- The value of a sequence of decimal digits. -/
def number (text : String) : ℕ := Nat.ofDigitChars 10 text.toList 0

/-- `std::from_chars` on an unsigned 64-bit integer: what it read, and what it left unread. -/
def from_chars (text : String) : Except Errc U64 × List Char :=
  let digits := text.toList.takeWhile Char.isDigit
  let rest := text.toList.dropWhile Char.isDigit
  if digits = [] then (.error .invalid_argument, rest)
  else if h : Nat.ofDigitChars 10 digits 0 < 2 ^ 64 then (.ok ⟨_, h⟩, rest)
  else (.error .result_out_of_range, rest)

def parse_u64 (text : String) : Option U64 :=
  if text = "" then none
  else
    match from_chars text with
    | (.ok value, []) => some value
    | _ => none

/-- `std::size_t` has 64 bits: the range check never fires. -/
def parse_size (text : String) : Option U64 :=
  match parse_u64 text with
  | none => none
  | some value => if value.val > 2 ^ 64 - 1 then none else some value

end Numbers

/-! ## Options by their flags -/

section Flags

/-- The options that take a value. -/
inductive Flag
  | workers
  | tasks
  | work
  | queue_capacity
  | fail_every
  deriving DecidableEq

def Flag.text : Flag → String
  | .workers => "--workers"
  | .tasks => "--tasks"
  | .work => "--work"
  | .queue_capacity => "--queue-capacity"
  | .fail_every => "--fail-every"

def Options.get (options : Options) : Flag → ℕ
  | .workers => options.workers
  | .tasks => options.tasks
  | .work => options.work
  | .queue_capacity => options.queue_capacity
  | .fail_every => options.fail_every

theorem Options.get_lt (options : Options) (flag : Flag) : options.get flag < 2 ^ 64 :=
  options.fits _ (by cases flag <;> simp [Options.get])

/-- The options with these values. -/
def Options.ofGet (value : Flag → U64) : Options where
  workers := value .workers
  tasks := value .tasks
  work := value .work
  queue_capacity := value .queue_capacity
  fail_every := value .fail_every
  fits := by
    simp only [List.forall_mem_cons]
    exact ⟨(value _).2, (value _).2, (value _).2, (value _).2, (value _).2, by simp⟩

@[simp] theorem Options.get_ofGet (value : Flag → U64) (flag : Flag) :
    (Options.ofGet value).get flag = value flag := by
  cases flag <;> rfl

theorem Options.ext_get {options options' : Options} (h : ∀ flag, options.get flag = options'.get flag) :
    options = options' := by
  obtain ⟨a, b, c, d, e, _⟩ := options
  obtain ⟨a', b', c', d', e', _⟩ := options'
  obtain rfl : a = a' := h .workers
  obtain rfl : b = b' := h .tasks
  obtain rfl : c = c' := h .work
  obtain rfl : d = d' := h .queue_capacity
  obtain rfl : e = e' := h .fail_every
  rfl

/-- Assigns one field. -/
def Options.set (options : Options) (flag : Flag) (value : U64) : Options :=
  .ofGet (Function.update (fun flag => ⟨options.get flag, options.get_lt flag⟩) flag value)

theorem Options.get_set (options : Options) (flag flag' : Flag) (value : U64) :
    (options.set flag value).get flag' = if flag' = flag then value.val else options.get flag' := by
  rw [Options.set, Options.get_ofGet, Function.update_apply]
  split <;> rfl

end Flags

/-! ## The parser -/

section Parser

inductive Action
  | Run
  | ShowHelp
  | ShowVersion
  | Fail
  deriving DecidableEq

structure ParseResult where
  action : Action
  options : Options
  error : String

/-- `Options{}`. -/
def Options.zero : Options := .ofGet fun _ => ⟨0, Nat.two_pow_pos 64⟩

def fail (message : String) : ParseResult := ⟨.Fail, .zero, message⟩

def quoted (text : String) : String := "'" ++ text ++ "'"

/-- The branch of one flag: its value is parsed and assigned. -/
def expect (flag : Flag) (parse : String → Option U64) (options : Options) (value : String) :
    Except ParseResult Options :=
  match parse value with
  | some n => .ok (options.set flag n)
  | none => .error (fail (flag.text ++ " expects a non-negative integer, got " ++ quoted value))

/-- The chain of comparisons at the end of the loop body. -/
def assign (options : Options) (arg value : String) : Except ParseResult Options :=
  if arg = "--workers" then expect .workers parse_size options value
  else if arg = "--tasks" then expect .tasks parse_size options value
  else if arg = "--work" then expect .work parse_u64 options value
  else if arg = "--queue-capacity" then expect .queue_capacity parse_size options value
  else if arg = "--fail-every" then expect .fail_every parse_u64 options value
  else .error (fail ("unrecognised option " ++ quoted arg))

/-- The loop, from the current options and the arguments left. -/
def parse_loop (options : Options) : List String → Except ParseResult Options
  | [] => .ok options
  | arg :: rest =>
    if arg = "-h" ∨ arg = "--help" then .error ⟨.ShowHelp, .zero, ""⟩
    else if arg = "--version" then .error ⟨.ShowVersion, .zero, ""⟩
    else if arg.utf8ByteSize < 3 ∨ arg.toList.take 2 ≠ ['-', '-'] then
      .error (fail ("unrecognised argument " ++ quoted arg))
    else
      match rest with
      | [] => .error (fail ("option " ++ quoted arg ++ " requires a value"))
      | value :: rest =>
        match assign options arg value with
        | .error result => .error result
        | .ok options => parse_loop options rest

/-- `default_worker_count`: one when the hardware concurrency is not known. -/
def default_worker_count (hardware_concurrency : UInt32) : ℕ :=
  if hardware_concurrency = 0 then 1 else hardware_concurrency.toNat

theorem default_worker_count_lt (hardware_concurrency : UInt32) :
    default_worker_count hardware_concurrency < 2 ^ 64 := by
  have := hardware_concurrency.toNat_lt
  unfold default_worker_count
  split <;> omega

theorem default_worker_count_pos (hardware_concurrency : UInt32) :
    0 < default_worker_count hardware_concurrency := by
  unfold default_worker_count
  split
  · exact Nat.one_pos
  · next h => exact Nat.pos_of_ne_zero fun h0 => h (UInt32.toNat_inj.mp h0)

def kDefaultTasks : ℕ := 1000

def kDefaultWork : ℕ := 1000

def kDefaultQueueCapacity : ℕ := 1024

/-- The options before the loop. -/
def default_options (hardware_concurrency : UInt32) : Options where
  workers := default_worker_count hardware_concurrency
  tasks := kDefaultTasks
  work := kDefaultWork
  queue_capacity := kDefaultQueueCapacity
  fail_every := 0
  fits := by
    have := default_worker_count_lt hardware_concurrency
    simp only [List.forall_mem_cons]
    exact ⟨this, by decide, by decide, by decide, by decide, by simp⟩

def parse_args (hardware_concurrency : UInt32) (args : List String) : ParseResult :=
  match parse_loop (default_options hardware_concurrency) args with
  | .error result => result
  | .ok options =>
    if options.workers = 0 then fail "--workers must be at least 1"
    else if options.queue_capacity = 0 then fail "--queue-capacity must be at least 1"
    else ⟨.Run, options, ""⟩

end Parser

/-! ## What the parsers of numbers accept -/

section Texts

/-- A non-empty sequence of digits of a value that fits. -/
structure Valid (text : String) : Prop where
  ne_empty : text ≠ ""
  digits : ∀ c ∈ text.toList, c.isDigit = true
  fits : number text < 2 ^ 64

theorem from_chars_digits {text : String} (hne : text ≠ "") (hd : ∀ c ∈ text.toList, c.isDigit = true) :
    from_chars text =
      (if h : number text < 2 ^ 64 then .ok ⟨number text, h⟩ else .error .result_out_of_range, []) := by
  have hnil : text.toList ≠ [] := fun h => hne (String.toList_eq_nil_iff.mp h)
  simp only [from_chars, List.takeWhile_eq_self_iff.mpr hd, List.dropWhile_eq_nil_iff.mpr hd,
    if_neg hnil]
  by_cases hfit : number text < 2 ^ 64
  · rw [dif_pos hfit]
    exact dif_pos hfit
  · rw [dif_neg hfit]
    exact dif_neg hfit

/-- A character that is not a digit is left unread. -/
theorem from_chars_rest {text : String} (hd : ¬ ∀ c ∈ text.toList, c.isDigit = true) :
    (from_chars text).2 ≠ [] := by
  have hrest : text.toList.dropWhile Char.isDigit ≠ [] := fun h => hd (List.dropWhile_eq_nil_iff.mp h)
  simp only [from_chars]
  split_ifs <;> exact hrest

/-- **`parse_u64`** accepts the valid texts, as their numbers. -/
theorem parse_u64_eq_some {text : String} {n : U64} :
    parse_u64 text = some n ↔ Valid text ∧ n.val = number text := by
  unfold parse_u64
  by_cases hne : text = ""
  · simp only [if_pos hne, reduceCtorEq, false_iff, not_and]
    exact fun h => absurd hne h.ne_empty
  rw [if_neg hne]
  by_cases hd : ∀ c ∈ text.toList, c.isDigit = true
  · rw [from_chars_digits hne hd]
    by_cases hfit : number text < 2 ^ 64
    · simp only [dif_pos hfit, Option.some.injEq]
      exact ⟨fun h => ⟨⟨hne, hd, hfit⟩, by rw [← h]⟩, fun h => Subtype.ext h.2.symm⟩
    · simp only [dif_neg hfit, reduceCtorEq, false_iff, not_and]
      exact fun h => absurd h.fits hfit
  · have hrest := from_chars_rest hd
    rcases hc : from_chars text with ⟨_ | value, _ | ⟨c, rest⟩⟩
    · simp [hc] at hrest
    · simp only [reduceCtorEq, false_iff, not_and]
      exact fun h => absurd h.digits hd
    · simp [hc] at hrest
    · simp only [reduceCtorEq, false_iff, not_and]
      exact fun h => absurd h.digits hd

theorem parse_size_eq (text : String) : parse_size text = parse_u64 text := by
  unfold parse_size
  cases parse_u64 text with
  | none => rfl
  | some value => exact if_neg (by have := value.2; omega)

theorem parse_u64_of_valid {text : String} (h : Valid text) :
    parse_u64 text = some ⟨number text, h.fits⟩ :=
  parse_u64_eq_some.mpr ⟨h, rfl⟩

theorem parse_u64_of_not_valid {text : String} (h : ¬ Valid text) : parse_u64 text = none :=
  Option.eq_none_iff_forall_ne_some.mpr fun _ hn => h (parse_u64_eq_some.mp hn).1

/-- The decimal rendering of a number is valid, and read back as the number. -/
theorem valid_repr {n : ℕ} (hn : n < 2 ^ 64) : Valid n.repr ∧ number n.repr = n := by
  have hnum : number n.repr = n := by
    rw [number, Nat.toList_repr, Nat.ofDigitChars_ten_toDigits]
  refine ⟨⟨?_, ?_, hnum.trans_lt hn⟩, hnum⟩
  · intro h
    have := Nat.length_repr_pos (n := n)
    rw [h] at this
    simp at this
  · intro c hc
    rw [Nat.toList_repr] at hc
    exact Nat.isDigit_of_mem_toDigits (by omega) (by omega) hc

end Texts

/-! ## Pairs of a flag and its value -/

section Pairs

/-- A flag with the text of its value. -/
abbrev Pair := Flag × String

/-- The arguments that spell the pairs. -/
def spell (pairs : List Pair) : List String := pairs.flatMap fun p => [p.1.text, p.2]

@[simp] theorem spell_nil : spell [] = [] := rfl

@[simp] theorem spell_cons (p : Pair) (pairs : List Pair) :
    spell (p :: pairs) = p.1.text :: p.2 :: spell pairs := rfl

/-- Assigns the field of a pair. -/
def Options.write (options : Options) (p : Pair) : Options :=
  match parse_u64 p.2 with
  | some n => options.set p.1 n
  | none => options

/-- The value of the last pair with the flag, or else the default. -/
def last (pairs : List Pair) (flag : Flag) (default : ℕ) : ℕ :=
  ((pairs.filter fun p => p.1 = flag).getLast?.map fun p => number p.2).getD default

variable {pairs pairs' : List Pair} {options : Options} {flag : Flag} {arg value : String}
  {rest : List String}

theorem assign_flag (options : Options) (flag : Flag) (value : String) :
    assign options flag.text value = expect flag parse_u64 options value := by
  have hsize : parse_size = parse_u64 := funext parse_size_eq
  cases flag <;> simp [assign, Flag.text, hsize]

theorem assign_valid (options : Options) (flag : Flag) (hv : Valid value) :
    assign options flag.text value = .ok (options.write (flag, value)) := by
  rw [assign_flag, expect, Options.write, parse_u64_of_valid hv]

theorem assign_invalid (options : Options) (flag : Flag) (hv : ¬ Valid value) :
    ∃ message, assign options flag.text value = .error (fail message) := by
  rw [assign_flag, expect, parse_u64_of_not_valid hv]
  exact ⟨_, rfl⟩

theorem assign_unrecognised (options : Options) (value : String) (h : ∀ flag : Flag, arg ≠ flag.text) :
    ∃ message, assign options arg value = .error (fail message) := by
  rw [assign, if_neg (show arg ≠ "--workers" from h .workers), if_neg (show arg ≠ "--tasks" from h .tasks),
    if_neg (show arg ≠ "--work" from h .work),
    if_neg (show arg ≠ "--queue-capacity" from h .queue_capacity),
    if_neg (show arg ≠ "--fail-every" from h .fail_every)]
  exact ⟨_, rfl⟩

theorem parse_loop_flag (options : Options) (flag : Flag) (value : String) (rest : List String) :
    parse_loop options (flag.text :: value :: rest) =
      match assign options flag.text value with
      | .error result => .error result
      | .ok options => parse_loop options rest := by
  cases flag <;> rfl

/-- The pairs at the front are assigned one after the other. -/
theorem parse_loop_spell (hv : ∀ p ∈ pairs, Valid p.2) (options : Options) (rest : List String) :
    parse_loop options (spell pairs ++ rest) = parse_loop (pairs.foldl Options.write options) rest := by
  induction pairs generalizing options with
  | nil => rfl
  | cons p pairs ih =>
    rw [spell_cons, List.cons_append, List.cons_append, parse_loop_flag, assign_valid _ _ (hv p (by simp))]
    exact ih (fun q hq => hv q (by simp [hq])) _

/-- The value of a field after the pairs. -/
theorem get_foldl_write (hv : ∀ p ∈ pairs, Valid p.2) (options : Options) (flag : Flag) :
    (pairs.foldl Options.write options).get flag = last pairs flag (options.get flag) := by
  induction pairs using List.reverseRecOn with
  | nil => rfl
  | append_singleton pairs p ih =>
    have hw : ∀ o : Options, o.write p = o.set p.1 ⟨number p.2, (hv p (by simp)).fits⟩ := fun o => by
      rw [Options.write, parse_u64_of_valid (hv p (by simp))]
    rw [List.foldl_append, List.foldl_cons, List.foldl_nil, hw, Options.get_set,
      ih fun q hq => hv q (by simp [hq]), last, last, List.filter_append]
    by_cases hf : flag = p.1
    · subst hf
      simp
    · simp [hf, Ne.symm hf]

end Pairs

/-! ## The grammar -/

section Grammar

/-- The arguments do not begin with a flag and a valid value. -/
def Stopped (args : List String) : Prop :=
  ∀ (flag : Flag) (value : String) (rest : List String),
    args = flag.text :: value :: rest → ¬ Valid value

/-- The first argument in flag position that is not a flag with a valid value. -/
def StopsAt (args : List String) (arg : String) : Prop :=
  ∃ pairs rest, args = spell pairs ++ arg :: rest ∧ (∀ p ∈ pairs, Valid p.2) ∧ Stopped (arg :: rest)

/-- A concatenation of pairs with valid values. -/
def Spelled (args : List String) (pairs : List Pair) : Prop :=
  args = spell pairs ∧ ∀ p ∈ pairs, Valid p.2

variable {pairs pairs' : List Pair} {options : Options} {arg : String} {args rest : List String}

/-- The pairs at the front, and what is left from where the scan stops. -/
theorem exists_scan (args : List String) :
    ∃ pairs rest, args = spell pairs ++ rest ∧ (∀ p ∈ pairs, Valid p.2) ∧ Stopped rest := by
  induction hn : args.length using Nat.strong_induction_on generalizing args with
  | _ n ih =>
    by_cases hs : Stopped args
    · exact ⟨[], args, rfl, by simp, hs⟩
    · obtain ⟨flag, value, rest, rfl, hv⟩ : ∃ flag value rest,
          args = Flag.text flag :: value :: rest ∧ Valid value := by
        simpa [Stopped] using hs
      obtain ⟨pairs, rest', rfl, hp, hs'⟩ := ih rest.length (by simp [← hn]) rest rfl
      exact ⟨(flag, value) :: pairs, rest', by simp, List.forall_mem_cons.mpr ⟨hv, hp⟩, hs'⟩

/-- Where the scan stops, the loop returns: help, the version, or an error. -/
theorem parse_loop_stopped (options : Options) (h : Stopped (arg :: rest)) :
    ∃ result, parse_loop options (arg :: rest) = .error result ∧
      (result.action = .ShowHelp ↔ arg = "-h" ∨ arg = "--help") ∧
      (result.action = .ShowVersion ↔ arg = "--version") ∧ result.action ≠ .Run := by
  -- in the order of the loop: help, the version, the flags
  by_cases hh : arg = "-h" ∨ arg = "--help"
  · refine ⟨⟨.ShowHelp, .zero, ""⟩, (parse_loop.eq_def _ _).trans (if_pos hh), by simp [hh], ?_, by simp⟩
    rcases hh with rfl | rfl <;> simp
  by_cases hver : arg = "--version"
  · refine ⟨⟨.ShowVersion, .zero, ""⟩,
      (parse_loop.eq_def _ _).trans ((if_neg hh).trans (if_pos hver)), ?_, by simp [hver], by simp⟩
    simp [hver]
  suffices hfail : ∃ message, parse_loop options (arg :: rest) = .error (fail message) by
    obtain ⟨message, hm⟩ := hfail
    exact ⟨fail message, hm, by simp [fail, hh], by simp [fail, hver], by simp [fail]⟩
  by_cases hflag : ∃ flag : Flag, arg = flag.text
  · obtain ⟨flag, rfl⟩ := hflag
    match rest with
    | [] => cases flag <;> exact ⟨_, rfl⟩
    | value :: rest =>
      obtain ⟨message, hm⟩ := assign_invalid options flag (h flag value rest rfl)
      exact ⟨message, by rw [parse_loop_flag, hm]⟩
  · rw [parse_loop.eq_def]
    simp only [if_neg hh, if_neg hver]
    split
    · exact ⟨_, rfl⟩
    · match rest with
      | [] => exact ⟨_, rfl⟩
      | value :: rest =>
        obtain ⟨message, hm⟩ := assign_unrecognised options value (not_exists.mp hflag)
        exact ⟨message, by simp only [hm]⟩

/-- The options that the pairs set, over the defaults. -/
def assigned (hardware_concurrency : UInt32) (pairs : List Pair) : Options :=
  pairs.foldl Options.write (default_options hardware_concurrency)

variable {hardware_concurrency : UInt32}

/-- `parse_args` on pairs only: the checks on the final values decide. -/
theorem parse_args_spelled (h : Spelled args pairs) :
    parse_args hardware_concurrency args =
      if (assigned hardware_concurrency pairs).workers = 0 then fail "--workers must be at least 1"
      else if (assigned hardware_concurrency pairs).queue_capacity = 0 then
        fail "--queue-capacity must be at least 1"
      else ⟨.Run, assigned hardware_concurrency pairs, ""⟩ := by
  have hloop : parse_loop (default_options hardware_concurrency) args =
      .ok (assigned hardware_concurrency pairs) := by
    rw [h.1, ← List.append_nil (spell pairs), parse_loop_spell h.2]
    rfl
  rw [parse_args, hloop]

/-- The defaults pass the checks: without arguments they are what is run. -/
theorem parse_args_nil : parse_args hardware_concurrency [] = ⟨.Run, default_options hardware_concurrency, ""⟩ := by
  have hw := default_worker_count_pos hardware_concurrency
  have hnone : Spelled [] [] := ⟨rfl, by simp⟩
  rw [parse_args_spelled hnone]
  exact (if_neg hw.ne').trans (if_neg (by decide : kDefaultQueueCapacity ≠ 0))

theorem parse_args_stopped (h : StopsAt args arg) :
    ((parse_args hardware_concurrency args).action = .ShowHelp ↔ arg = "-h" ∨ arg = "--help") ∧
    ((parse_args hardware_concurrency args).action = .ShowVersion ↔ arg = "--version") ∧
    (parse_args hardware_concurrency args).action ≠ .Run := by
  obtain ⟨pairs, rest, rfl, hv, hs⟩ := h
  obtain ⟨result, hr, hres⟩ := parse_loop_stopped
    (pairs.foldl Options.write (default_options hardware_concurrency)) hs
  have : parse_args hardware_concurrency (spell pairs ++ arg :: rest) = result := by
    rw [parse_args, parse_loop_spell hv, hr]
  rwa [this]

/-- The argument at which the scan stops is determined. -/
theorem StopsAt.unique {arg' : String} (h : StopsAt args arg) (h' : StopsAt args arg') : arg = arg' := by
  obtain ⟨pairs, rest, rfl, hv, hs⟩ := h
  obtain ⟨pairs', rest', heq, hv', hs'⟩ := h'
  induction pairs generalizing pairs' with
  | nil =>
    cases pairs' with
    | nil => exact (List.cons.inj heq).1
    | cons p pairs' => exact absurd (hv' p (by simp)) (hs p.1 p.2 _ heq)
  | cons p pairs ih =>
    cases pairs' with
    | nil => exact absurd (hv p (by simp)) (hs' p.1 p.2 _ heq.symm)
    | cons p' pairs' =>
      simp only [spell_cons, List.cons_append, List.cons.injEq] at heq
      exact ih (fun q hq => hv q (by simp [hq])) pairs' heq.2.2 fun q hq => hv' q (by simp [hq])

/-- Every list of arguments is spelled by pairs, or the scan stops in it. -/
theorem spelled_or_stopsAt (args : List String) : (∃ pairs, Spelled args pairs) ∨ ∃ arg, StopsAt args arg := by
  obtain ⟨pairs, rest, rfl, hv, hs⟩ := exists_scan args
  cases rest with
  | nil => exact .inl ⟨pairs, by simp, hv⟩
  | cons arg rest => exact .inr ⟨arg, pairs, rest, rfl, hv, hs⟩

end Grammar

/-! ## What `parse_args` returns -/

section Results

/-- The scan stops at a request for help. -/
def AsksHelp (args : List String) : Prop := ∃ arg, StopsAt args arg ∧ (arg = "-h" ∨ arg = "--help")

/-- The scan stops at a request for the version. -/
def AsksVersion (args : List String) : Prop := StopsAt args "--version"

/-- Pairs with valid values, of which the last or default counts of workers and places are not zero. -/
def Accepted (hardware_concurrency : UInt32) (args : List String) : Prop :=
  ∃ pairs, Spelled args pairs ∧
    last pairs .workers ((default_options hardware_concurrency).get .workers) ≠ 0 ∧
    last pairs .queue_capacity ((default_options hardware_concurrency).get .queue_capacity) ≠ 0

variable {hardware_concurrency : UInt32} {args : List String} {pairs pairs' : List Pair}

theorem assigned_get (hv : ∀ p ∈ pairs, Valid p.2) (flag : Flag) :
    (assigned hardware_concurrency pairs).get flag =
      last pairs flag ((default_options hardware_concurrency).get flag) :=
  get_foldl_write hv _ flag

theorem parse_args_spelled_action (h : Spelled args pairs) :
    (parse_args hardware_concurrency args).action ≠ .ShowHelp ∧
    (parse_args hardware_concurrency args).action ≠ .ShowVersion ∧
    ((parse_args hardware_concurrency args).action = .Run ↔
      last pairs .workers ((default_options hardware_concurrency).get .workers) ≠ 0 ∧
      last pairs .queue_capacity ((default_options hardware_concurrency).get .queue_capacity) ≠ 0) := by
  rw [parse_args_spelled h, ← assigned_get h.2, ← assigned_get h.2]
  show _ ∧ _ ∧ (_ ↔ (assigned hardware_concurrency pairs).workers ≠ 0 ∧
    (assigned hardware_concurrency pairs).queue_capacity ≠ 0)
  split_ifs with hw hc
  · simp [fail, hw]
  · simp [fail, hc]
  · simp [hw, hc]

theorem showHelp_iff : (parse_args hardware_concurrency args).action = .ShowHelp ↔ AsksHelp args := by
  constructor
  · intro h
    rcases spelled_or_stopsAt args with ⟨pairs, hp⟩ | ⟨arg, ha⟩
    · exact absurd h (parse_args_spelled_action hp).1
    · exact ⟨arg, ha, (parse_args_stopped ha).1.mp h⟩
  · rintro ⟨arg, ha, hh⟩
    exact (parse_args_stopped ha).1.mpr hh

theorem showVersion_iff :
    (parse_args hardware_concurrency args).action = .ShowVersion ↔ AsksVersion args := by
  constructor
  · intro h
    rcases spelled_or_stopsAt args with ⟨pairs, hp⟩ | ⟨arg, ha⟩
    · exact absurd h (parse_args_spelled_action hp).2.1
    · obtain rfl := (parse_args_stopped ha).2.1.mp h
      exact ha
  · intro ha
    exact (parse_args_stopped ha).2.1.mpr rfl

theorem run_iff :
    (parse_args hardware_concurrency args).action = .Run ↔ Accepted hardware_concurrency args := by
  constructor
  · intro h
    rcases spelled_or_stopsAt args with ⟨pairs, hp⟩ | ⟨arg, ha⟩
    · exact ⟨pairs, hp, (parse_args_spelled_action hp).2.2.mp h⟩
    · exact absurd h (parse_args_stopped ha).2.2
  · rintro ⟨pairs, hp, hne⟩
    exact (parse_args_spelled_action hp).2.2.mpr hne

/-- The options depend on the pairs of each flag only. -/
theorem assigned_congr (hv : ∀ p ∈ pairs, Valid p.2) (hv' : ∀ p ∈ pairs', Valid p.2)
    (h : ∀ flag : Flag, pairs'.filter (fun p => p.1 = flag) = pairs.filter fun p => p.1 = flag) :
    assigned hardware_concurrency pairs' = assigned hardware_concurrency pairs := by
  apply Options.ext_get
  intro flag
  rw [assigned_get hv, assigned_get hv', last, last, h]

/-- Pairs rendered from options, in any order of the flags. -/
def render (options : Options) (flags : List Flag) : List Pair :=
  flags.map fun flag => (flag, (options.get flag).repr)

theorem last_render {options : Options} {flags : List Flag} {flag : Flag} (hf : flag ∈ flags)
    (default : ℕ) : last (render options flags) flag default = options.get flag := by
  have hfilter : (render options flags).filter (fun p => p.1 = flag) =
      List.replicate (flags.count flag) (flag, (options.get flag).repr) := by
    rw [render, List.filter_map, List.count_eq_length_filter]
    refine List.eq_replicate_iff.mpr ⟨?_, ?_⟩
    · simp only [List.length_map, Function.comp_def]
      rfl
    · intro p hp
      simp only [List.mem_map, List.mem_filter, Function.comp_apply, decide_eq_true_eq] at hp
      obtain ⟨g, ⟨-, rfl⟩, rfl⟩ := hp
      rfl
  have hpos : 0 < flags.count flag := List.count_pos_iff.mpr hf
  rw [last, hfilter, List.getLast?_replicate, if_neg hpos.ne', Option.map_some, Option.getD_some]
  exact (valid_repr (options.get_lt flag)).2

/-- **What `parse_args` accepts and returns.**  It stops at the first argument in flag position that
is not a flag with a valid value; without one it runs, unless a count is zero; the last value of each
flag wins, whatever the order of the flags; and it reads back options that were rendered. -/
theorem parse_args_spec (hardware_concurrency : UInt32) :
    (∀ args, ((parse_args hardware_concurrency args).action = .ShowHelp ↔ AsksHelp args) ∧
      ((parse_args hardware_concurrency args).action = .ShowVersion ↔ AsksVersion args) ∧
      ((parse_args hardware_concurrency args).action = .Run ↔ Accepted hardware_concurrency args) ∧
      ((parse_args hardware_concurrency args).action = .Fail ↔
        ¬ AsksHelp args ∧ ¬ AsksVersion args ∧ ¬ Accepted hardware_concurrency args)) ∧
    (∀ args pairs, Spelled args pairs → (parse_args hardware_concurrency args).action = .Run →
      ∀ flag, (parse_args hardware_concurrency args).options.get flag =
        last pairs flag ((default_options hardware_concurrency).get flag)) ∧
    (∀ pairs pairs' : List Pair, (∀ p ∈ pairs, Valid p.2) →
      (∀ flag : Flag, pairs'.filter (fun p => p.1 = flag) = pairs.filter fun p => p.1 = flag) →
      parse_args hardware_concurrency (spell pairs') = parse_args hardware_concurrency (spell pairs)) ∧
    ∀ (options : Options) (flags : List Flag), 1 ≤ options.workers → 1 ≤ options.queue_capacity →
      flags.Perm [.workers, .tasks, .work, .queue_capacity, .fail_every] →
      parse_args hardware_concurrency (spell (render options flags)) = ⟨.Run, options, ""⟩ := by
  refine ⟨fun args => ⟨showHelp_iff, showVersion_iff, run_iff, ?_⟩, ?_, ?_, ?_⟩
  · rw [← @showHelp_iff hardware_concurrency, ← @showVersion_iff hardware_concurrency, ← run_iff]
    cases (parse_args hardware_concurrency args).action <;> simp
  · intro args pairs hp hrun flag
    obtain ⟨hw, hc⟩ := (parse_args_spelled_action hp).2.2.mp hrun
    rw [← assigned_get hp.2] at hw hc ⊢
    have hres : parse_args hardware_concurrency args = ⟨.Run, assigned hardware_concurrency pairs, ""⟩ :=
      (parse_args_spelled hp).trans ((if_neg hw).trans (if_neg hc))
    rw [hres]
  · intro pairs pairs' hv h
    have hv' : ∀ p ∈ pairs', Valid p.2 := fun p hp => by
      -- `pairs'` has the pairs of `pairs`, so its values are valid too
      have hm : p ∈ pairs'.filter fun q => q.1 = p.1 := List.mem_filter.mpr ⟨hp, by simp⟩
      rw [h] at hm
      exact hv p (List.mem_of_mem_filter hm)
    rw [parse_args_spelled ⟨rfl, hv⟩, parse_args_spelled ⟨rfl, hv'⟩, assigned_congr hv hv' h]
  · intro options flags hw hc hperm
    have hv : ∀ p ∈ render options flags, Valid p.2 := by
      intro p hp
      obtain ⟨flag, -, rfl⟩ := List.mem_map.mp hp
      exact (valid_repr (options.get_lt flag)).1
    have hall : assigned hardware_concurrency (render options flags) = options :=
      Options.ext_get fun flag => by
        rw [assigned_get hv]
        exact last_render (hperm.mem_iff.mpr (by cases flag <;> simp)) _
    rw [parse_args_spelled ⟨rfl, hv⟩, hall, if_neg (by omega), if_neg (by omega)]

end Results

/-! ## Help -/

section Help

/-- A request for help with only flags and valid values before it. -/
def HelpFirst (args : List String) : Prop :=
  ∃ pairs arg rest, args = spell pairs ++ arg :: rest ∧ (∀ p ∈ pairs, Valid p.2) ∧
    (arg = "-h" ∨ arg = "--help")

variable {hardware_concurrency : UInt32} {args : List String} {pairs : List Pair} {arg : String}

theorem help_not_flag (h : arg = "-h" ∨ arg = "--help") : (∀ flag : Flag, arg ≠ flag.text) ∧ ¬ Valid arg := by
  rcases h with rfl | rfl
  · refine ⟨fun flag => by cases flag <;> decide, fun hv => ?_⟩
    exact absurd (hv.digits '-' (by decide)) (by decide)
  · refine ⟨fun flag => by cases flag <;> decide, fun hv => ?_⟩
    exact absurd (hv.digits '-' (by decide)) (by decide)

theorem asksHelp_iff : AsksHelp args ↔ HelpFirst args := by
  constructor
  · rintro ⟨arg, ⟨pairs, rest, rfl, hv, -⟩, hh⟩
    exact ⟨pairs, arg, rest, rfl, hv, hh⟩
  · rintro ⟨pairs, arg, rest, rfl, hv, hh⟩
    refine ⟨arg, ⟨pairs, rest, rfl, hv, ?_⟩, hh⟩
    intro flag value rest' heq
    exact absurd (List.cons.inj heq).1 ((help_not_flag hh).1 flag)

theorem help_not_mem_spell (h : arg = "-h" ∨ arg = "--help") (hv : ∀ p ∈ pairs, Valid p.2) :
    arg ∉ spell pairs := by
  intro hm
  obtain ⟨p, hp, hmem⟩ := List.mem_flatMap.mp hm
  rcases List.mem_pair.mp hmem with heq | heq
  · exact (help_not_flag h).1 p.1 heq
  · exact (help_not_flag h).2 (heq ▸ hv p hp)

/-- **Help wins** over what follows it, and over flags with valid values before it: then it is never an
error, and else it always is one. -/
theorem help_wins_iff (hhelp : "-h" ∈ args ∨ "--help" ∈ args) (hversion : "--version" ∉ args) :
    ((parse_args hardware_concurrency args).action = .ShowHelp ↔ HelpFirst args) ∧
    ((parse_args hardware_concurrency args).action = .Fail ↔ ¬ HelpFirst args) := by
  have hnorun : (parse_args hardware_concurrency args).action ≠ .Run := by
    intro hrun
    obtain ⟨pairs, ⟨rfl, hv⟩, -⟩ := run_iff.mp hrun
    rcases hhelp with hm | hm
    · exact help_not_mem_spell (.inl rfl) hv hm
    · exact help_not_mem_spell (.inr rfl) hv hm
  have hnoversion : (parse_args hardware_concurrency args).action ≠ .ShowVersion := by
    intro hshow
    obtain ⟨pairs, rest, rfl, -, -⟩ := showVersion_iff.mp hshow
    exact hversion (by simp)
  rw [← asksHelp_iff, ← @showHelp_iff hardware_concurrency]
  refine ⟨Iff.rfl, ?_⟩
  cases ha : (parse_args hardware_concurrency args).action with
  | Run => exact absurd ha hnorun
  | ShowVersion => exact absurd ha hnoversion
  | ShowHelp => simp
  | Fail => simp

/-- Behind a valid pair, and before an unknown option. -/
theorem help_wins_behind_pair :
    (parse_args 4 ["--workers", "4", "--help", "--nonsense"]).action = .ShowHelp := by
  have hvalid : Valid "4" := ⟨by simp, by simp, by decide⟩
  refine (help_wins_iff (.inr (by decide)) (by decide)).1.mpr ?_
  exact ⟨[(.workers, "4")], "--help", ["--nonsense"], rfl, by simpa using hvalid, .inr rfl⟩

/-- Behind an unknown option, and as the value of a flag, it is an error. -/
theorem help_loses :
    (parse_args 4 ["--nonsense", "--help"]).action = .Fail ∧
    (parse_args 4 ["--workers", "--help"]).action = .Fail := by
  decide

end Help

end TaskEngine
