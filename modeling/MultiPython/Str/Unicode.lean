import MultiPython.Logic.Utf8
import MultiPython.Str.Vstr

/-!
# Unicode strings

`py/unicode.c` and `py/objstrunicode.c`. A pointer into a string is the list of the bytes from there
on; the byte behind the string is null, where every scan for continuation bytes ends. Scans that
go backwards read a list of bytes from its end.
-/

namespace MultiPython.Str

open Logic List

/-- What is raised. -/
inductive StrFailure where
  | indexError
  | overflowError
deriving DecidableEq, Repr

/-- The loop of `utf8_get_char` that clears the high ones of a lead byte, from a bit on. -/
def clearOnes : Nat → Nat → Nat
  | 0, ord => if ord &&& 1 ≠ 0 then ord &&& 0xFFFFFFFE else ord
  | bit + 1, ord =>
    if ord &&& 2 ^ (bit + 1) ≠ 0 then clearOnes bit (ord &&& (0xFFFFFFFF ^^^ 2 ^ (bit + 1)))
    else ord

def utf8GetChar : List Nat → Nat
  | [] => 0
  | ord :: s =>
    if ord &&& 0x80 = 0 then ord
    else
      (s.takeWhile isCont).foldl (fun ord c => (ord <<< 6 ||| c &&& 0x3F) % 2 ^ 32)
        (clearOnes 6 (ord &&& 0x7F))

def utf8NextChar (s : List Nat) : List Nat := s.tail.dropWhile isCont

/-- The loops that count characters. -/
def countChars (bytes : List Nat) : Nat :=
  bytes.foldl (fun charlen c => if isCont c then charlen else charlen + 1) 0

/-- `utf8_ptr_to_index`, for a pointer with some bytes before it, which are read backwards. -/
def utf8PtrToIndex (before : List Nat) : Nat := countChars before.reverse

def utf8Charlen (str : List Nat) : Nat := countChars str

/-- The loop of `utf8_check`. -/
def utf8CheckLoop : Nat → List Nat → Bool
  | need, [] => need == 0
  | need, c :: p =>
    if need ≠ 0 then if isCont c then utf8CheckLoop (need - 1) p else false
    else if c ≥ 0xC0 then
      if c ≥ 0xF8 then false else utf8CheckLoop ((0xE5 >>> (c >>> 3 &&& 0x6)) &&& 3) p
    else if c ≥ 0x80 then false
    else utf8CheckLoop 0 p

def utf8Check (p : List Nat) : Bool := utf8CheckLoop 0 p

/-- The characters of a string, taken with `utf8_get_char` and `utf8_next_char` up to its end. -/
def utf8Decode (s : List Nat) : List Nat :=
  match s with
  | [] => []
  | c :: rest => utf8GetChar (c :: rest) :: utf8Decode (utf8NextChar (c :: rest))
termination_by s.length
decreasing_by
  have shorter := (List.dropWhile_sublist (l := rest) isCont).length_le
  simp only [utf8NextChar, List.tail_cons, List.length_cons]
  omega

/-- The bytes of characters that `vstr_add_char` adds one after the other. -/
def utf8Encode (cps : List Nat) : List Nat := cps.flatMap charBytes

/-- The loop of `str_index_to_ptr` for a negative index: the bytes before the pointer are those that
are left, backwards. -/
def scanBackward : List Nat → List Nat → Nat → Option (List Nat)
  | _, s, 0 => some s
  | [], _, _ + 1 => none
  | c :: before, s, count + 1 =>
    scanBackward before (c :: s) (if isCont c then count + 1 else count)

/-- The loop of `str_index_to_ptr` for another index. -/
def scanForward : Nat → List Nat → Option (List Nat)
  | 0, s => if s = [] then none else some s
  | i + 1, s => if s = [] then none else scanForward i (utf8NextChar s)

variable (wordBits : Nat)

/-- `str_index_to_ptr`, for an integer. -/
def strIndexToPtr (selfData : List Nat) (index : Int) (isSlice : Bool) :
    Except StrFailure (List Nat) :=
  if 2 * index < -2 ^ wordBits ∨ 2 ^ wordBits ≤ 2 * index then .error .overflowError
  else if index < 0 then
    match scanBackward selfData.reverse [] (-index).toNat with
    | some s => .ok s
    | none => if isSlice then .ok selfData else .error .indexError
  else
    match scanForward index.toNat selfData with
    | some s => .ok s
    | none => if isSlice then .ok [] else .error .indexError

/-- One end of a slice, or `None`. -/
def sliceEnd (selfData : List Nat) (index : Option Int) (otherwise : List Nat) :
    Except StrFailure (List Nat) :=
  match index with
  | none => .ok otherwise
  | some index => strIndexToPtr wordBits selfData index true

/-- `str_subscr` for a slice with step 1. -/
def strSlice (selfData : List Nat) (start stop : Option Int) : Except StrFailure (List Nat) := do
  let pstart ← sliceEnd wordBits selfData start selfData
  let pstop ← sliceEnd wordBits selfData stop []
  if pstop.length > pstart.length then .ok []
  else .ok (pstart.take (pstart.length - pstop.length))

/-- The loop of `str_subscr` that counts the high ones of a lead byte, from a bit on. -/
def countOnes (c : Nat) : Nat → Nat
  | 0 => if c &&& 1 ≠ 0 then 1 else 0
  | bit + 1 => if c &&& 2 ^ (bit + 1) ≠ 0 then 1 + countOnes c bit else 0

/-- How many bytes `str_subscr` takes for a character. -/
def charSize (s : List Nat) : Nat :=
  if s.headD 0 &&& 0x80 ≠ 0 then 1 + countOnes (s.headD 0) 6 else 1

/-- `str_subscr` for an integer. -/
def strSubscr (selfData : List Nat) (index : Int) : Except StrFailure (List Nat) := do
  let s ← strIndexToPtr wordBits selfData index false
  .ok (s.take (charSize s))

def strItIternext (cur : List Nat) : Option (List Nat × List Nat) :=
  if cur.length > 0 then
    let stop := utf8NextChar cur
    some (cur.take (cur.length - stop.length), stop)
  else none

/-- The strings that an iterator gives. -/
def strIterate (cur : List Nat) : List (List Nat) :=
  match _next : strItIternext cur with
  | none => []
  | some (char, stop) => char :: strIterate stop
termination_by cur.length
decreasing_by
  have shorter := (List.dropWhile_sublist (l := cur.tail) isCont).length_le
  unfold strItIternext at _next
  split_ifs at _next with some_
  cases _next
  rw [List.length_tail] at shorter
  show (cur.tail.dropWhile isCont).length < cur.length
  omega

/-! ## Lists of code points -/

/-- `cps[i]`. -/
def listIndex (cps : List Nat) (i : Int) : Option Nat :=
  if 0 ≤ i then cps[i.toNat]?
  else if -(cps.length : Int) ≤ i then cps[(cps.length + i).toNat]? else none

/-- An end of a slice of a list with some items. -/
def clampedEnd (count : Nat) (otherwise : Nat) : Option Int → Nat
  | none => otherwise
  | some i => if i < 0 then (count + i).toNat else min i.toNat count

/-- `cps[start:stop]`. -/
def listSlice (cps : List Nat) (start stop : Option Int) : List Nat :=
  (cps.take (clampedEnd cps.length cps.length stop)).drop (clampedEnd cps.length 0 start)

/-- An integer that is one of the machine. -/
def IsMachineInt (i : Int) : Prop := -2 ^ wordBits ≤ 2 * i ∧ 2 * i < 2 ^ wordBits

/-- A string behaves as a list of code points. -/
structure BehavesAs (selfData cps : List Nat) : Prop where
  len : utf8Charlen selfData = cps.length
  index : ∀ i, IsMachineInt wordBits i →
    match listIndex cps i with
    | some c => ∃ char, strSubscr wordBits selfData i = .ok char ∧ Spells char [c]
    | none => strSubscr wordBits selfData i = .error .indexError
  slice : ∀ start stop : Option Int, (∀ i ∈ start, IsMachineInt wordBits i) →
    (∀ i ∈ stop, IsMachineInt wordBits i) →
    ∃ piece, strSlice wordBits selfData start stop = .ok piece ∧
      Spells piece (listSlice cps start stop)
  iterate : List.Forall₂ (fun char c => Spells char [c]) (strIterate selfData) cps
  ptrToIndex : ∀ k : Nat, k ≤ cps.length → IsMachineInt wordBits k →
    ∃ before s, strIndexToPtr wordBits selfData k true = .ok s ∧ before ++ s = selfData ∧
      utf8PtrToIndex before = k
  decode : utf8Decode selfData = cps

/-! ## Scans over characters -/

theorem countChars_eq (bytes : List Nat) : countChars bytes = bytes.countP (fun c => !isCont c) := by
  have fromAny : ∀ charlen, bytes.foldl (fun charlen c => if isCont c then charlen else charlen + 1)
      charlen = charlen + bytes.countP (fun c => !isCont c) := by
    induction bytes with
    | nil => intro charlen; rfl
    | cons c bytes ih =>
      intro charlen
      rw [foldl_cons, ih, countP_cons]
      cases isCont c with
      | false =>
        simp only [Bool.false_eq_true, if_false, Bool.not_false, if_true]
        omega
      | true => simp only [if_true, Bool.not_true, Bool.false_eq_true, if_false, Nat.add_zero]
  rw [countChars, fromAny, Nat.zero_add]

variable {c : Nat}

section Chars

variable {char conts before s : List Nat} {chars : List (List Nat)}

theorem appended_bits (ord c : Nat) : ord <<< 6 ||| c &&& 0x3F = ord * 64 + c % 64 := by
  have low : c &&& 0x3F = c % 64 := Nat.and_two_pow_sub_one_eq_mod c 6
  have bound : c % 64 < 2 ^ 6 := Nat.mod_lt _ (by decide)
  rw [low, ← Nat.shiftLeft_add_eq_or_of_lt bound, Nat.shiftLeft_eq]

theorem foldl_getChar {ord : Nat} (small : (ord + 1) * 64 ^ conts.length ≤ 2 ^ 32) :
    conts.foldl (fun ord c => (ord <<< 6 ||| c &&& 0x3F) % 2 ^ 32) ord =
      conts.foldl (fun value c => value * 64 + c % 64) ord := by
  induction conts generalizing ord with
  | nil => rfl
  | cons c conts ih =>
    rw [length_cons, Nat.pow_succ'] at small
    have positive : 0 < 64 ^ conts.length := Nat.pow_pos (by decide)
    have bound : c % 64 < 64 := Nat.mod_lt _ (by decide)
    have larger : ord * 64 + c % 64 + 1 ≤ (ord + 1) * 64 := by
      rw [Nat.add_mul, Nat.add_assoc]
      exact Nat.add_le_add_left bound _
    have enough : (ord * 64 + c % 64 + 1) * 64 ^ conts.length ≤ 2 ^ 32 :=
      (Nat.mul_le_mul_right _ larger).trans ((Nat.mul_assoc ..).le.trans small)
    have fits : ord * 64 + c % 64 < 2 ^ 32 :=
      (Nat.le_mul_of_pos_right _ positive).trans enough
    rw [foldl_cons, foldl_cons, appended_bits, Nat.mod_eq_of_lt fits]
    exact ih enough

set_option maxRecDepth 4000 in
/-- What is left of a lead byte. -/
theorem clearOnes_lead : ∀ lead < 0xF8, isLead lead → ¬lead &&& 0x80 = 0 →
    clearOnes 6 (lead &&& 0x7F) = leadBits lead ∧ leadBits lead < 32 := by
  decide

set_option maxRecDepth 4000 in
theorem leadBits_ascii : ∀ lead < 0xF8, isLead lead → lead &&& 0x80 = 0 →
    leadBits lead = lead ∧ following lead = 0 := by
  decide

set_option maxRecDepth 4000 in
/-- The number of ones in front of a lead byte is the size of the character. -/
theorem countOnes_lead : ∀ lead < 0xF8, isLead lead →
    (if lead &&& 0x80 ≠ 0 then 1 + countOnes lead 6 else 1) = 1 + following lead := by
  decide

set_option maxRecDepth 4000 in
/-- One step of the check, between characters. -/
theorem utf8CheckLoop_lead : ∀ c < 0xF8, isLead c →
    (c ≥ 0xC0 → (0xE5 >>> (c >>> 3 &&& 0x6)) &&& 3 = following c) ∧
      (c < 0xC0 → c < 0x80 ∧ following c = 0) := by
  decide

theorem isLead_lt {lead : Nat} (starts : isLead lead) : lead < 0xF8 := by
  simp only [isLead, Bool.or_eq_true, Bool.and_eq_true, decide_eq_true_eq] at starts
  omega

theorem following_le (lead : Nat) : following lead ≤ 3 := by
  unfold following
  split_ifs <;> omega

theorem utf8GetChar_spec (isChar : IsChar char) (text : ∀ char ∈ chars, IsChar char) :
    utf8GetChar (char ++ chars.flatten) = charValue char := by
  obtain ⟨starts, length, continues⟩ := isChar
  rename_i lead conts
  have small := isLead_lt starts
  rw [cons_append, utf8GetChar, takeWhile_conts text continues, charValue]
  split_ifs with ascii
  · obtain ⟨same, none_⟩ := leadBits_ascii lead small starts ascii
    rw [none_] at length
    rw [eq_nil_of_length_eq_zero length, foldl_nil, same]
  · obtain ⟨same, bound⟩ := clearOnes_lead lead small starts ascii
    rw [same]
    apply foldl_getChar
    have few := following_le lead
    have power : 64 ^ conts.length ≤ 64 ^ 3 := Nat.pow_le_pow_right (by decide) (by omega)
    calc (leadBits lead + 1) * 64 ^ conts.length ≤ 32 * 64 ^ 3 := Nat.mul_le_mul (by omega) power
      _ ≤ 2 ^ 32 := by decide

theorem utf8NextChar_spec (isChar : IsChar char) (text : ∀ char ∈ chars, IsChar char) :
    utf8NextChar (char ++ chars.flatten) = chars.flatten := by
  obtain ⟨lead, conts, rfl, -, continues⟩ := isChar.shape
  exact dropWhile_conts text continues

theorem charSize_spec (isChar : IsChar char) : charSize (char ++ s) = char.length := by
  obtain ⟨starts, length, -⟩ := isChar
  rename_i lead conts
  rw [charSize, cons_append, headD_cons, length_cons,
    countOnes_lead lead (isLead_lt starts) starts, length]
  omega

theorem utf8CheckLoop_conts (continues : ∀ c ∈ conts, isCont c) (p : List Nat) :
    utf8CheckLoop conts.length (conts ++ p) = utf8CheckLoop 0 p := by
  induction conts with
  | nil => rfl
  | cons c conts ih =>
    rw [length_cons, cons_append, utf8CheckLoop, if_pos (Nat.succ_ne_zero _),
      if_pos (continues c mem_cons_self), Nat.add_sub_cancel]
    exact ih fun c member => continues c (mem_cons_of_mem _ member)

variable {p : List Nat}

theorem utf8CheckLoop_eq_true {need : Nat} (checked : utf8CheckLoop need p = true) :
    ∃ conts rest, p = conts ++ rest ∧ conts.length = need ∧ (∀ c ∈ conts, isCont c) ∧
      utf8CheckLoop 0 rest = true := by
  induction need generalizing p with
  | zero => exact ⟨[], p, rfl, rfl, by simp, checked⟩
  | succ need ih =>
    cases p with
    | nil => simp [utf8CheckLoop] at checked
    | cons c p =>
      rw [utf8CheckLoop, if_pos (Nat.succ_ne_zero _), Nat.add_sub_cancel] at checked
      split_ifs at checked with continues
      obtain ⟨conts, rest, rfl, rfl, all, later⟩ := ih checked
      exact ⟨c :: conts, rest, rfl, rfl, forall_mem_cons.mpr ⟨continues, all⟩, later⟩

theorem utf8CheckLoop_cons (starts : isLead c) (p : List Nat) :
    utf8CheckLoop 0 (c :: p) = utf8CheckLoop (following c) p := by
  obtain ⟨long, ascii⟩ := utf8CheckLoop_lead c (isLead_lt starts) starts
  have small := isLead_lt starts
  rw [utf8CheckLoop, if_neg (by simp)]
  split_ifs with large tooLarge high
  · omega
  · rw [long large]
  · have := (ascii (by omega)).1
    omega
  · rw [(ascii (by omega)).2]

theorem isLead_of_check (checked : utf8CheckLoop 0 (c :: p) = true) : isLead c := by
  rw [utf8CheckLoop, if_neg (by simp)] at checked
  split_ifs at checked with large tooLarge high
  · simp only [isLead, Bool.or_eq_true, Bool.and_eq_true, decide_eq_true_eq]
    omega
  · simp only [isLead, Bool.or_eq_true, Bool.and_eq_true, decide_eq_true_eq]
    omega

/-- Text passes the check. -/
theorem utf8Check_flatten (text : ∀ char ∈ chars, IsChar char) :
    utf8Check chars.flatten = true := by
  induction chars with
  | nil => rfl
  | cons char chars ih =>
    obtain ⟨starts, length, continues⟩ := text char mem_cons_self
    rw [flatten_cons, cons_append, utf8Check, utf8CheckLoop_cons starts, ← length,
      utf8CheckLoop_conts continues]
    exact ih fun char member => text char (mem_cons_of_mem _ member)

/-- What passes the check is text. -/
theorem text_of_utf8Check (checked : utf8Check p = true) :
    ∃ chars : List (List Nat), (∀ char ∈ chars, IsChar char) ∧ chars.flatten = p := by
  induction size : p.length using Nat.strong_induction_on generalizing p with
  | _ size ih =>
    cases p with
    | nil => exact ⟨[], by simp, rfl⟩
    | cons c p =>
      have starts := isLead_of_check checked
      rw [utf8Check, utf8CheckLoop_cons starts] at checked
      obtain ⟨conts, rest, rfl, length, continues, later⟩ := utf8CheckLoop_eq_true checked
      obtain ⟨chars, text, rfl⟩ := ih rest.length
        (by rw [← size, length_cons, length_append]; omega) later rfl
      exact ⟨(c :: conts) :: chars,
        forall_mem_cons.mpr ⟨⟨starts, length, continues⟩, text⟩, rfl⟩

theorem scanForward_spec (text : ∀ char ∈ chars, IsChar char) (i : Nat) :
    scanForward i chars.flatten =
      if i < chars.length then some (chars.drop i).flatten else none := by
  induction i generalizing chars with
  | zero =>
    cases chars with
    | nil => rfl
    | cons char chars =>
      have some_ := (text char mem_cons_self).ne_nil
      rw [scanForward, if_neg (by simp [some_]), if_pos (by simp), drop_zero]
  | succ i ih =>
    cases chars with
    | nil => rfl
    | cons char chars =>
      have isChar := text char mem_cons_self
      have later : ∀ char ∈ chars, IsChar char :=
        fun char member => text char (mem_cons_of_mem _ member)
      rw [scanForward, if_neg (by simp [isChar.ne_nil]), flatten_cons,
        utf8NextChar_spec isChar later, ih later, length_cons,
        drop_succ_cons]
      simp only [Nat.add_lt_add_iff_right]

theorem scanBackward_conts (continues : ∀ c ∈ conts, isCont c) (count : Nat) :
    scanBackward (conts.reverse ++ before) s (count + 1) =
      scanBackward before (conts ++ s) (count + 1) := by
  induction conts using reverseRecOn generalizing s with
  | nil => rfl
  | append_singleton conts c ih =>
    have last : isCont c := continues c (by simp)
    rw [reverse_append, reverse_singleton, singleton_append, cons_append,
      scanBackward, if_pos last,
      ih fun c member => continues c (mem_append_left _ member),
      append_assoc, singleton_append]

theorem scanBackward_spec (text : ∀ char ∈ chars, IsChar char) (count : Nat) :
    scanBackward chars.flatten.reverse s count =
      if count ≤ chars.length then some ((chars.drop (chars.length - count)).flatten ++ s)
      else none := by
  induction chars using reverseRecOn generalizing s count with
  | nil => cases count <;> rfl
  | append_singleton chars char ih =>
    have isChar := text char (by simp)
    have front : ∀ char ∈ chars, IsChar char :=
      fun char member => text char (mem_append_left _ member)
    cases count with
    | zero =>
      rw [if_pos (Nat.zero_le _), Nat.sub_zero, drop_length, flatten_nil,
        nil_append]
      cases (chars ++ [char]).flatten.reverse <;> rfl
    | succ count =>
      obtain ⟨lead, conts, rfl, first, continues⟩ := isChar.shape
      have reversed : (chars ++ [lead :: conts]).flatten.reverse =
          conts.reverse ++ lead :: chars.flatten.reverse := by
        simp
      rw [reversed, scanBackward_conts continues, scanBackward,
        if_neg (by simp [first]), ih front]
      have length : (chars ++ [lead :: conts]).length = chars.length + 1 := by simp
      rw [length, Nat.add_sub_add_right]
      by_cases inside : count ≤ chars.length
      · rw [if_pos inside, if_pos (by omega), drop_append_of_le_length (by omega)]
        simp
      · rw [if_neg inside, if_neg (by omega)]

theorem strIterate_spec (text : ∀ char ∈ chars, IsChar char) :
    strIterate chars.flatten = chars := by
  induction chars with
  | nil =>
    rw [strIterate]
    rfl
  | cons char chars ih =>
    have isChar := text char mem_cons_self
    have later : ∀ char ∈ chars, IsChar char :=
      fun char member => text char (mem_cons_of_mem _ member)
    have next : strItIternext (char :: chars).flatten = some (char, chars.flatten) := by
      have positive : 0 < char.length := length_pos_iff.mpr isChar.ne_nil
      rw [flatten_cons, strItIternext,
        if_pos (by rw [length_append]; omega)]
      simp only [utf8NextChar_spec isChar later, length_append, Nat.add_sub_cancel,
        take_left]
    rw [strIterate, next]
    simp only [ih later]

theorem utf8Decode_spec (text : ∀ char ∈ chars, IsChar char) :
    utf8Decode chars.flatten = chars.map charValue := by
  induction chars with
  | nil => rw [flatten_nil, utf8Decode, map_nil]
  | cons char chars ih =>
    have isChar := text char mem_cons_self
    have later : ∀ char ∈ chars, IsChar char :=
      fun char member => text char (mem_cons_of_mem _ member)
    have get := utf8GetChar_spec isChar later
    have next := utf8NextChar_spec isChar later
    rw [flatten_cons, map_cons]
    cases isBytes : char ++ chars.flatten with
    | nil => exact absurd (append_eq_nil_iff.mp isBytes).1 isChar.ne_nil
    | cons c rest =>
      rw [isBytes] at get next
      rw [utf8Decode, get, next, ih later]

theorem flatten_between {start stop : Nat} (ordered : start ≤ stop) (inside : stop ≤ chars.length) :
    (chars.drop start).flatten =
      ((chars.take stop).drop start).flatten ++ (chars.drop stop).flatten := by
  rw [← flatten_append, ← drop_append_of_le_length (by rw [length_take]; omega),
    take_append_drop]

variable {wordBits : Nat}

section

variable (text : ∀ char ∈ chars, IsChar char)

include text

theorem strIndexToPtr_slice {i : Int} (machine : IsMachineInt wordBits i) (otherwise : Nat) :
    strIndexToPtr wordBits chars.flatten i true =
      .ok (chars.drop (clampedEnd chars.length otherwise (some i))).flatten := by
  rw [strIndexToPtr, if_neg (by obtain ⟨low, high⟩ := machine; omega), clampedEnd]
  by_cases negative : i < 0
  · rw [if_pos negative, if_pos negative, scanBackward_spec text]
    by_cases inside : (-i).toNat ≤ chars.length
    · rw [if_pos inside, append_nil]
      rw [show chars.length - (-i).toNat = (chars.length + i).toNat by omega]
    · rw [if_neg inside, show (chars.length + i).toNat = 0 by omega, drop_zero]
      rfl
  · rw [if_neg negative, if_neg negative, scanForward_spec text]
    by_cases inside : i.toNat < chars.length
    · rw [if_pos inside, Nat.min_eq_left (by omega)]
    · rw [if_neg inside, Nat.min_eq_right (by omega), drop_length]
      rfl

theorem sliceEnd_spec {index : Option Int} (machine : ∀ i ∈ index, IsMachineInt wordBits i)
    {otherwise : Nat} :
    sliceEnd wordBits chars.flatten index (chars.drop otherwise).flatten =
      .ok (chars.drop (clampedEnd chars.length otherwise index)).flatten := by
  cases index with
  | none => rfl
  | some i => exact strIndexToPtr_slice text (machine i rfl) otherwise

theorem strSlice_spec {start stop : Option Int}
    (startMachine : ∀ i ∈ start, IsMachineInt wordBits i)
    (stopMachine : ∀ i ∈ stop, IsMachineInt wordBits i) :
    strSlice wordBits chars.flatten start stop =
      .ok ((chars.take (clampedEnd chars.length chars.length stop)).drop
        (clampedEnd chars.length 0 start)).flatten := by
  have startPtr := @sliceEnd_spec _ _ text _ startMachine 0
  have stopPtr := @sliceEnd_spec _ _ text _ stopMachine chars.length
  rw [drop_zero] at startPtr
  rw [drop_length, flatten_nil] at stopPtr
  have inside : clampedEnd chars.length chars.length stop ≤ chars.length := by
    cases stop with
    | none => exact Nat.le_refl _
    | some i =>
      simp only [clampedEnd]
      split_ifs <;> omega
  rw [strSlice, startPtr, stopPtr]
  generalize clampedEnd chars.length 0 start = a
  generalize clampedEnd chars.length chars.length stop = b at inside
  show (if _ then _ else _) = _
  by_cases ordered : a ≤ b
  · rw [flatten_between ordered inside, length_append, if_neg (by omega),
      Nat.add_sub_cancel, take_left]
  · have nothing : (chars.take b).drop a = [] := drop_of_length_le (by
      rw [length_take]
      omega)
    have shorter : (chars.drop a).flatten.length ≤ (chars.drop b).flatten.length := by
      have suffix : chars.drop a <:+ chars.drop b := drop_suffix_drop_left chars (by omega)
      obtain ⟨front, same⟩ := suffix
      rw [← same, flatten_append, length_append]
      omega
    rw [nothing, flatten_nil, Nat.sub_eq_zero_of_le shorter, take_zero, ite_self]

theorem strSubscr_spec {i : Int} (machine : IsMachineInt wordBits i) :
    match listIndex (chars.map charValue) i with
    | some c => ∃ char, strSubscr wordBits chars.flatten i = .ok char ∧ Spells char [c]
    | none => strSubscr wordBits chars.flatten i = .error .indexError := by
  -- A pointer to a character gives the character.
  have atChar : ∀ k (inside : k < chars.length),
      strIndexToPtr wordBits chars.flatten i false = .ok (chars.drop k).flatten →
      ∃ char, strSubscr wordBits chars.flatten i = .ok char ∧ Spells char [charValue chars[k]] := by
    intro k inside points
    have isChar : IsChar chars[k] := text _ (getElem_mem inside)
    refine ⟨chars[k], ?_, [chars[k]], by simpa using isChar, by simp, rfl⟩
    rw [strSubscr, points, drop_eq_getElem_cons inside, flatten_cons]
    show Except.ok _ = _
    rw [charSize_spec isChar, take_left]
  have inRange := machine
  obtain ⟨low, high⟩ := machine
  simp only [listIndex, length_map]
  by_cases negative : i < 0
  · rw [if_neg (by omega)]
    have points : strIndexToPtr wordBits chars.flatten i false =
        match scanBackward chars.flatten.reverse [] (-i).toNat with
        | some s => .ok s
        | none => .error .indexError := by
      rw [strIndexToPtr, if_neg (by omega), if_pos negative]
      rfl
    rw [scanBackward_spec text] at points
    by_cases inside : -(chars.length : Int) ≤ i
    · rw [if_pos inside]
      have index : (chars.length + i).toNat < chars.length := by omega
      rw [if_pos (by omega), show chars.length - (-i).toNat = (chars.length + i).toNat by omega,
        append_nil] at points
      rw [getElem?_eq_getElem (by rw [length_map]; exact index)]
      simp only [getElem_map]
      exact atChar _ index points
    · rw [if_neg inside]
      rw [if_neg (by omega)] at points
      simp only [strSubscr, points]
      rfl
  · rw [if_pos (by omega)]
    have points : strIndexToPtr wordBits chars.flatten i false =
        match scanForward i.toNat chars.flatten with
        | some s => .ok s
        | none => .error .indexError := by
      rw [strIndexToPtr, if_neg (by omega), if_neg negative]
      rfl
    rw [scanForward_spec text] at points
    by_cases inside : i.toNat < chars.length
    · rw [if_pos inside] at points
      rw [getElem?_eq_getElem (by rw [length_map]; exact inside)]
      simp only [getElem_map]
      exact atChar _ inside points
    · rw [if_neg inside] at points
      rw [getElem?_eq_none (by rw [length_map]; omega)]
      simp only [strSubscr, points]
      rfl

/-- Text behaves as the list of its code points. -/
theorem behavesAs_of_text :
    BehavesAs wordBits chars.flatten (chars.map charValue) where
  len := by
    rw [utf8Charlen, countChars_eq, countP_flatten text, length_map]
  index := fun i machine => strSubscr_spec text machine
  slice := by
    intro start stop startMachine stopMachine
    refine ⟨_, strSlice_spec text startMachine stopMachine, ?_⟩
    have piece : listSlice (chars.map charValue) start stop =
        ((chars.take (clampedEnd chars.length chars.length stop)).drop
          (clampedEnd chars.length 0 start)).map charValue := by
      rw [listSlice, length_map, map_drop, map_take]
    rw [piece]
    exact .flatten fun char member => text char
      (mem_of_mem_take (mem_of_mem_drop member))
  iterate := by
    rw [strIterate_spec text, forall₂_map_right_iff, forall₂_same]
    intro char member
    exact ⟨[char], by simpa using text char member, by simp, rfl⟩
  ptrToIndex := by
    intro k inside machine
    rw [length_map] at inside
    refine ⟨(chars.take k).flatten, (chars.drop k).flatten, ?_, ?_, ?_⟩
    · have clamped : clampedEnd chars.length 0 (some (k : Int)) = k := by
        simp only [clampedEnd]
        rw [if_neg (by omega), Int.toNat_natCast, Nat.min_eq_left inside]
      rw [strIndexToPtr_slice text machine 0, clamped]
    · rw [← flatten_append, take_append_drop]
    · rw [utf8PtrToIndex, countChars_eq, countP_reverse,
        countP_flatten fun char member => text char (mem_of_mem_take member),
        length_take, Nat.min_eq_left inside]
  decode := utf8Decode_spec text

end

end Chars

/-! ## Encoding -/

set_option maxRecDepth 4000 in
/-- Low bits behind the marks of a byte. -/
theorem marks : ∀ x < 64,
    (x ||| 0x80 = 128 + x ∧ isCont (128 + x) = true) ∧
    (x < 32 → (x ||| 0xC0) % 256 = 192 + x ∧ isLead (192 + x) = true) ∧
    (x < 16 → (x ||| 0xE0) % 256 = 224 + x) ∧
    (x < 8 → (x ||| 0xF0) % 256 = 240 + x) := by
  decide

theorem charBytes_eq (bound : c < 0x110000) :
    charBytes c =
      if c < 0x80 then [c]
      else if c < 0x800 then [192 + c / 64, 128 + c % 64]
      else if c < 0x10000 then [224 + c / 4096, 128 + c / 64 % 64, 128 + c % 64]
      else [240 + c / 262144, 128 + c / 4096 % 64, 128 + c / 64 % 64, 128 + c % 64] := by
  have low : ∀ x : Nat, x &&& 0x3F ||| 0x80 = 128 + x % 64 := by
    intro x
    rw [show x &&& 0x3F = x % 64 from Nat.and_two_pow_sub_one_eq_mod x 6]
    exact (marks _ (Nat.mod_lt _ (by decide))).1.1
  have shift6 : c >>> 6 = c / 64 := Nat.shiftRight_eq_div_pow c 6
  have shift12 : c >>> 12 = c / 4096 := Nat.shiftRight_eq_div_pow c 12
  have shift18 : c >>> 18 = c / 262144 := Nat.shiftRight_eq_div_pow c 18
  unfold charBytes
  simp only [shift6, shift12, shift18, low]
  split_ifs with one two three
  · rfl
  · rw [((marks _ (by omega)).2.1 (by omega)).1]
  · rw [(marks _ (by omega)).2.2.1 (by omega)]
  · rw [(marks _ (by omega)).2.2.2 (by omega)]

theorem lead_two {x : Nat} (small : x < 32) :
    isLead (192 + x) ∧ following (192 + x) = 1 ∧ leadBits (192 + x) = x := by
  revert x
  decide

theorem lead_three {x : Nat} (small : x < 16) :
    isLead (224 + x) ∧ following (224 + x) = 2 ∧ leadBits (224 + x) = x := by
  revert x
  decide

theorem lead_four {x : Nat} (small : x < 8) :
    isLead (240 + x) ∧ following (240 + x) = 3 ∧ leadBits (240 + x) = x := by
  revert x
  decide

theorem append_bits (x : Nat) : x / 64 * 64 + (128 + x % 64) % 64 = x := by
  rw [Nat.add_mod, Nat.mod_mod]
  norm_num
  exact Nat.div_add_mod' x 64

theorem charBytes_spec (bound : c < 0x110000) :
    IsChar (charBytes c) ∧ charValue (charBytes c) = c := by
  have cont : ∀ x, isCont (128 + x % 64) := fun x => (marks _ (Nat.mod_lt _ (by decide))).1.2
  have by12 : c / 4096 = c / 64 / 64 := (Nat.div_div_eq_div_mul c 64 64).symm
  have by18 : c / 262144 = c / 4096 / 64 := (Nat.div_div_eq_div_mul c 4096 64).symm
  rw [charBytes_eq bound]
  split_ifs with one two three
  · refine ⟨⟨by simp [isLead, one], by simp [following, one], by simp⟩, ?_⟩
    simp [charValue, leadBits, one]
  · obtain ⟨lead, length, bits⟩ := @lead_two (c / 64) (by omega)
    refine ⟨⟨lead, length.symm, by simp [cont]⟩, ?_⟩
    rw [charValue, bits]
    exact append_bits c
  · obtain ⟨lead, length, bits⟩ := @lead_three (c / 4096) (by omega)
    refine ⟨⟨lead, length.symm, by simp [cont]⟩, ?_⟩
    rw [charValue, bits, by12, foldl_cons, append_bits]
    exact append_bits c
  · obtain ⟨lead, length, bits⟩ := @lead_four (c / 262144) (by omega)
    refine ⟨⟨lead, length.symm, by simp [cont]⟩, ?_⟩
    rw [charValue, bits, by18, foldl_cons, append_bits, by12, foldl_cons, append_bits]
    exact append_bits c

theorem utf8Encode_eq (cps : List Nat) : utf8Encode cps = (cps.map charBytes).flatten := by
  rw [utf8Encode, flatMap_def]

theorem chars_of_cps {cps : List Nat} (bound : ∀ c ∈ cps, c < 0x110000) :
    (∀ char ∈ cps.map charBytes, IsChar char) ∧ (cps.map charBytes).map charValue = cps := by
  constructor
  · intro char member
    obtain ⟨c, inside, rfl⟩ := mem_map.mp member
    exact (charBytes_spec (bound c inside)).1
  · rw [map_map]
    exact (map_congr_left fun c inside => (charBytes_spec (bound c inside)).2).trans
      (map_id cps)

theorem utf8Decode_encode {cps : List Nat} (bound : ∀ c ∈ cps, c < 0x110000) :
    utf8Decode (utf8Encode cps) = cps := by
  obtain ⟨text, values⟩ := chars_of_cps bound
  rw [utf8Encode_eq, utf8Decode_spec text, values]

end MultiPython.Str
