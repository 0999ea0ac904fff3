import Mathlib.Data.Finmap
import Mathlib.Data.Rat.Floor
import Pancake.Lib.Sampler

/-!
# Basic types

What every part of the proxy is written in: character strings, the faults a
call can end with, `std::unordered_map`, and the little of the C++ number
and string conversions the proxy uses. `double` is exact rational
arithmetic, with the IEEE results of a division by zero where the proxy can
reach one; `int` is unbounded.
-/

namespace Pancake

/-- `std::string`, as the list of its characters. -/
abbrev Str := List Char

/-- How a call can fail to return: an exception, a failed `assert`, or an
operation the language leaves undefined. -/
inductive Fault where
  | keyDoesNotExist
  | storageMiss
  | assertionFailed
  | divisionByZero
  | indexOutOfBounds
  | invalidArgument
  | outOfRange
  | bufferOverflow
  | cipherAborted
  | futureWithoutState
  deriving DecidableEq, Repr

/-- `assert` -/
def assert (p : Prop) [Decidable p] : Except Fault Unit :=
  if p then .ok () else .error .assertionFailed

@[simp] theorem assert_eq_ok {p : Prop} [Decidable p] {u : Unit} : assert p = .ok u ↔ p := by
  simp [assert]

/-- A sequenced call returns exactly when both halves do. -/
theorem bind_eq_ok {α β : Type} {x : Except Fault α} {f : α → Except Fault β} {b : β} :
    (x >>= f) = .ok b ↔ ∃ a, x = .ok a ∧ f a = .ok b := by
  cases x with
  | ok a => simp [Bind.bind, Except.bind]
  | error e => simp [Bind.bind, Except.bind]

@[simp] theorem ok_bind {α β : Type} (a : α) (f : α → Except Fault β) :
    ((Except.ok a : Except Fault α) >>= f) = f a := rfl

@[simp] theorem error_bind {α β : Type} (e : Fault) (f : α → Except Fault β) :
    ((Except.error e : Except Fault α) >>= f) = .error e := rfl

@[simp] theorem pure_eq_ok {α : Type} (a : α) : (pure a : Except Fault α) = .ok a := rfl

/-- A call returns if a test of what it returns can be evaluated to true. -/
theorem exists_ok_of_decide {α : Type} {x : Except Fault α} {P : α → Prop} [DecidablePred P]
    (h : x.map (fun a => decide (P a)) = .ok true) : ∃ a, x = .ok a ∧ P a := by
  cases x with
  | error e => cases h
  | ok a => exact ⟨a, rfl, of_decide_eq_true (Except.ok.inj h)⟩

/-- A call fails if it does whatever it would have returned. -/
theorem eq_error_of_map {α : Type} {x : Except Fault α} {e : Fault}
    (h : x.map (fun _ => ()) = .error e) : x = .error e := by
  cases x with
  | error e' =>
      cases h
      rfl
  | ok a => cases h

theorem mapM_eq_some {α β : Type} {f : α → Option β} {l : List α} {l' : List β} :
    l.mapM f = some l' ↔ l.map f = l'.map some := by
  induction l generalizing l' with
  | nil => cases l' <;> simp
  | cons a l ih =>
      rw [List.mapM_cons]
      cases hf : f a with
      | none => cases l' <;> simp [hf]
      | some b =>
          cases l' with
          | nil => simp [hf, Option.bind_eq_some_iff]
          | cons b' l' => simp [hf, Option.bind_eq_some_iff, ih, and_comm]

/-! ## `std::unordered_map` -/

/-- `std::unordered_map<std::string, V>` -/
abbrev UnorderedMap (V : Type) := Finmap fun _ : Str => V

namespace UnorderedMap

variable {V : Type} [Inhabited V]

/-- The value `operator[]` reads: that of the key, or the default it inserts. -/
def at_ (m : UnorderedMap V) (k : Str) : V := (m.lookup k).getD default

/-- What `operator[]` leaves behind: an absent key is inserted. -/
def touch (m : UnorderedMap V) (k : Str) : UnorderedMap V :=
  if k ∈ m then m else m.insert k default

@[simp] theorem at_insert (m : UnorderedMap V) (k : Str) (v : V) :
    at_ (m.insert k v) k = v := by
  simp [at_]

theorem at_insert_of_ne (m : UnorderedMap V) {k k' : Str} (v : V) (h : k' ≠ k) :
    at_ (m.insert k v) k' = at_ m k' := by
  rw [at_, Finmap.lookup_insert_of_ne _ h, at_]

theorem lookup_touch_self (m : UnorderedMap V) (k : Str) :
    (touch m k).lookup k = some (at_ m k) := by
  unfold touch at_
  split
  · rename_i h
    obtain ⟨v, hv⟩ := Finmap.mem_iff.mp h
    simp [hv]
  · rename_i h
    rw [Finmap.lookup_insert, Finmap.lookup_eq_none.mpr h]
    rfl

theorem lookup_touch_of_ne (m : UnorderedMap V) {k k' : Str} (h : k' ≠ k) :
    (touch m k).lookup k' = m.lookup k' := by
  unfold touch
  split
  · rfl
  · exact Finmap.lookup_insert_of_ne _ h

/-- A default inserted by a read is not seen by later reads. -/
@[simp] theorem at_touch (m : UnorderedMap V) (k k' : Str) : at_ (touch m k) k' = at_ m k' := by
  by_cases h : k' = k
  · subst h; simp [at_, lookup_touch_self]
  · rw [at_, lookup_touch_of_ne m h, at_]

theorem touch_of_mem {m : UnorderedMap V} {k : Str} (h : k ∈ m) : touch m k = m := if_pos h

theorem mem_touch {m : UnorderedMap V} {k k' : Str} : k' ∈ touch m k ↔ k' = k ∨ k' ∈ m := by
  unfold touch
  split
  · rename_i h
    exact ⟨.inr, fun hc => hc.elim (fun he => he ▸ h) id⟩
  · exact Finmap.mem_insert

theorem touch_comm (m : UnorderedMap V) (k k' : Str) :
    touch (touch m k) k' = touch (touch m k') k := by
  apply Finmap.ext_lookup
  intro x
  have key : ∀ (m : UnorderedMap V) (k : Str), (touch m k).lookup x
      = if x = k then some (at_ m k) else m.lookup x := by
    intro m k
    by_cases h : x = k
    · subst h; simp [lookup_touch_self]
    · simp [h, lookup_touch_of_ne m h]
  simp only [key, at_touch]
  by_cases h : x = k <;> by_cases h' : x = k'
  · rw [if_pos h', if_pos h, ← h, ← h']
  · rw [if_neg h', if_pos h, if_pos h]
  · rw [if_pos h', if_neg h, if_pos h']
  · rw [if_neg h', if_neg h, if_neg h, if_neg h']

end UnorderedMap

/-! ## Strings and numbers -/

/-- `std::to_string` of a non-negative `int`. -/
def toString (n : Nat) : Str := Nat.toDigits 10 n

theorem toString_injective : Function.Injective toString := by
  intro a b h
  have := congrArg (Nat.ofDigitChars 10 · 0) h
  simpa [toString, Nat.ofDigitChars_toDigits] using this

@[simp] theorem toString_inj {a b : Nat} : toString a = toString b ↔ a = b :=
  toString_injective.eq_iff

/-- `isspace` in the C locale. -/
def isSpace (c : Char) : Bool := c = ' ' || (9 ≤ c.toNat && c.toNat ≤ 13)

/-- `std::stoi` -/
def stoi (s : Str) : Except Fault Int :=
  let s := s.dropWhile isSpace
  let (negative, s) : Bool × Str := match s with
    | '-' :: rest => (true, rest)
    | '+' :: rest => (false, rest)
    | rest => (false, rest)
  let digits := s.takeWhile Char.isDigit
  if digits = [] then .error .invalidArgument
  else
    let magnitude : Int := Nat.ofDigitChars 10 digits 0
    let n := if negative then -magnitude else magnitude
    if -2 ^ 31 ≤ n ∧ n < 2 ^ 31 then .ok n else .error .outOfRange

/-- `std::string::operator=(char)` on an `int`: the number is narrowed to a
character, and the string is that one character. -/
def assignInt (n : Nat) : Str := [Char.ofNat (n % 256)]

/-- What `stoi` makes of a number that went through `assignInt`: the digit
its last byte happens to be, or an exception. -/
theorem stoi_assignInt (n : Nat) :
    stoi (assignInt n) =
      if 48 ≤ n % 256 ∧ n % 256 ≤ 57 then .ok ((n % 256 - 48 : Nat) : Int)
      else .error .invalidArgument := by
  have h : n % 256 < 256 := Nat.mod_lt _ (by norm_num)
  generalize hm : n % 256 = m at h
  have hdec : ∀ m, m < 256 → stoi [Char.ofNat m] =
      if 48 ≤ m ∧ m ≤ 57 then .ok ((m - 48 : Nat) : Int) else .error .invalidArgument := by
    decide +kernel
  rw [assignInt, hm]
  exact hdec m h

/-- The conversion of a `double` to `int`: truncation towards zero. -/
def truncate (q : ℚ) : Int := if 0 ≤ q then ⌊q⌋ else ⌈q⌉

/-- `std::size_t` subtraction, which wraps below zero. -/
def sizeSub (a b : Nat) : Nat := if b ≤ a then a - b else 2 ^ 64 + a - b

/-- The result of a `double` division. -/
inductive Quotient where
  | finite (q : ℚ)
  | posInfinity
  | negInfinity
  | nan

/-- `a / b` on `double`. -/
def divide (a b : ℚ) : Quotient :=
  if b ≠ 0 then .finite (a / b)
  else if 0 < a then .posInfinity
  else if a < 0 then .negInfinity
  else .nan

/-- `prob`: a uniform draw of `[0, 1)` is below `p`. -/
def prob : Quotient → Sampler Bool
  | .finite p => .coin p .done
  | .posInfinity => .coin 1 .done
  | .negInfinity => .coin 0 .done
  | .nan => .coin 0 .done

/-- The coin falls on some side. -/
theorem exists_possible_prob (q : Quotient) : ∃ b, (prob q).Possible b := by
  cases q with
  | finite p =>
      by_cases hp : 0 < p
      · exact ⟨true, .inl ⟨hp, rfl⟩⟩
      · exact ⟨false, .inr ⟨by linarith, rfl⟩⟩
  | posInfinity => exact ⟨true, .inl ⟨by norm_num, rfl⟩⟩
  | negInfinity => exact ⟨false, .inr ⟨by norm_num, rfl⟩⟩
  | nan => exact ⟨false, .inr ⟨by norm_num, rfl⟩⟩

/-- A quotient below one can fail. -/
theorem possible_prob_false {a b : ℚ} (h : a < b) (hb : 0 ≤ b) :
    (prob (divide a b)).Possible false := by
  rcases hb.eq_or_lt with rfl | hpos
  · rw [divide, if_neg (by simp), if_neg (not_lt.mpr h.le), if_pos h]
    exact .inr ⟨by norm_num, rfl⟩
  · rw [divide, if_pos hpos.ne']
    exact .inr ⟨(div_lt_one hpos).mpr h, rfl⟩

/-- `rand() % n` -/
def randMod (n : Nat) : Sampler (Except Fault Nat) :=
  if n = 0 then .done (.error .divisionByZero) else .uniform n fun i => .done (.ok i)

theorem possible_randMod {n i : Nat} : (randMod n).Possible (.ok i) ↔ i < n := by
  unfold randMod
  split
  · rename_i h; simp [h]
  · simp [Sampler.Possible]

end Pancake
