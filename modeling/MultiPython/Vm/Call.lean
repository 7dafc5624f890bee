import MultiPython.Logic.Buffer
import MultiPython.Vm.Emit

/-!
# Calls

The arguments of a call on their way: `compile_trailer_paren_helper` of `py/compile.c` pushes them and
counts, the emitter packs the counts into one operand, `py/vm.c` takes them apart again, and for a `*`
or `**` argument `mp_call_prepare_args_n_kw_var` of `py/runtime.c` makes an array of them. A store
outside of that array has no result. Counts of items that are all in memory are numbers; an allocation
that fails raises before anything is called.
-/

namespace MultiPython.Vm

open Logic List Option

/-! ## Compilation -/

/-- An argument of a call, with its value; `f(x for x in y)` is a comprehension, and a name that is
no identifier is `none`. -/
inductive Arg (α : Type) where
  | positional (value : α)
  | comprehension (value : α)
  | keyword (name : Option α) (value : α)
  | star (value : α)
  | dblStar (value : α)
deriving DecidableEq, Repr

/-- The variables of `compile_trailer_paren_helper`, with the values that the emitted code pushes. -/
structure Compiled (α : Type) where
  pushed : List α
  nPositional : Nat
  nKeyword : Nat
  starArgs : Option α
  dblstarArgs : Option α
deriving DecidableEq, Repr

variable {α : Type}

def Compiled.starFlags (c : Compiled α) : Bool := c.starArgs.isSome || c.dblstarArgs.isSome

/-- One round of the loop of `compile_trailer_paren_helper`. -/
def compileArg (c : Compiled α) : Arg α → Except String (Compiled α)
  | .star value =>
    if c.starArgs.isSome then .error "can't have multiple *x"
    else .ok { c with starArgs := some value }
  | .dblStar value =>
    if c.dblstarArgs.isSome then .error "can't have multiple **x"
    else .ok { c with dblstarArgs := some value }
  | .keyword none _ => .error "LHS of keyword arg must be an id"
  | .keyword (some name) value =>
    .ok { c with pushed := c.pushed ++ [name, value], nKeyword := c.nKeyword + 1 }
  | .comprehension value =>
    .ok { c with pushed := c.pushed ++ [value], nPositional := c.nPositional + 1 }
  | .positional value =>
    if c.starFlags then .error "non-keyword arg after */**"
    else if c.nKeyword > 0 then .error "non-keyword arg after keyword arg"
    else .ok { c with pushed := c.pushed ++ [value], nPositional := c.nPositional + 1 }

/-- The loop of `compile_trailer_paren_helper`. -/
def compileArgs (c : Compiled α) : List (Arg α) → Except String (Compiled α)
  | [] => .ok c
  | arg :: args => do
      let c ← compileArg c arg
      compileArgs c args

/-- `compile_trailer_paren_helper`, for the extra values that are pushed and count as positional. -/
def compileTrailerParen (extra : List α) (args : List (Arg α)) : Except String (Compiled α) :=
  compileArgs
    { pushed := extra, nPositional := extra.length, nKeyword := 0, starArgs := none,
      dblstarArgs := none } args

/-- What is pushed in the end: a null object is `none`. -/
def Compiled.slots (c : Compiled α) : List (Option α) :=
  c.pushed.map some ++ if c.starFlags then [c.starArgs, c.dblstarArgs] else []

/-- The bytecode of the call. -/
def Compiled.bytecode (config : EmitConfig) (isMethod : Bool) (c : Compiled α) : List Nat :=
  let call := if isMethod then EmitCall.callMethod c.nPositional c.nKeyword c.starFlags
    else EmitCall.callFunction c.nPositional c.nKeyword c.starFlags
  (call.writes config).flatMap fun
    | .byteUint b val => b :: uintBytes config val
    | _ => []

/-! ## The array of arguments -/

/-- A sequence: a tuple or list, or what an iterator gives (`none` where it raises). Iterating runs
code, which may change the pairs of a dict. -/
inductive PosSeq (α : Type) where
  | array (items : List α)
  | iterator (items : List (Option α)) (effect : List (Option (α × α)) → List (Option (α × α)))

/-- A mapping: a dict with the pairs of its filled slots, or another one with the pairs that it gives.
The keys are interned; a pair whose key is no string, or for which the mapping raises, is `none`. -/
inductive KwDict (α : Type) where
  | dict (pairs : List (Option (α × α)))
  | mapping (pairs : List (Option (α × α)))

/-- What the objects are as sequences and as mappings. -/
structure CallObjects (α : Type) where
  sequence : α → PosSeq α
  mapping : α → KwDict α

/-- What a callee receives. -/
structure Received (α : Type) where
  fn : Option α
  positional : List (Option α)
  keywords : List (Option α)
deriving DecidableEq, Repr

/-- How a call begins: with an exception, or the callee receives its arguments. -/
inductive CallStart (α : Type) where
  | raised
  | called (received : Received α)
deriving DecidableEq, Repr

/-- `args2`, with `args2_len`; `args2_alloc` is the number of cells. -/
structure Args2 (α : Type) where
  cells : List (Option α)
  len : Nat

/-- `mp_nonlocal_alloc`. -/
def Args2.alloc (args2Alloc : Nat) : Args2 α :=
  { cells := List.replicate args2Alloc none, len := 0 }

/-- `mp_nonlocal_realloc`. -/
def Args2.realloc (a : Args2 α) (newAlloc : Nat) : Args2 α :=
  { a with cells := resized (fun _ => none) newAlloc a.cells }

/-- Store items at `args2_len`, which goes up by their number. -/
def Args2.store (a : Args2 α) (items : List (Option α)) : Option (Args2 α) :=
  (storeAt a.cells a.len items).map fun cells => { cells := cells, len := a.len + items.length }

/-- The loop for the items of an iterator. -/
def storeItems (a : Args2 α) : List (Option α) → Option (Option (Args2 α))
  | [] => some (some a)
  | none :: _ => some none
  | some item :: items => do
      let a := if a.len ≥ a.cells.length then a.realloc (a.cells.length * 2) else a
      let a ← a.store [some item]
      storeItems a items

/-- The loop for the pairs of a dict. -/
def storeDict (a : Args2 α) : List (Option (α × α)) → Option (Option (Args2 α))
  | [] => some (some a)
  | none :: _ => some none
  | some (key, value) :: pairs => do
      let a ← a.store [some key, some value]
      storeDict a pairs

/-- The loop for the pairs of another mapping. -/
def storeMapping (a : Args2 α) : List (Option (α × α)) → Option (Option (Args2 α))
  | [] => some (some a)
  | none :: _ => some none
  | some (key, value) :: pairs => do
      let newAlloc := a.cells.length * 2
      let a := if a.len + 1 ≥ a.cells.length then a.realloc (if newAlloc < 4 then 4 else newAlloc) else a
      let a ← a.store [some key, some value]
      storeMapping a pairs

/-- The size hint of a mapping. -/
def kwDictLen : Option (KwDict α) → Nat
  | some (.dict pairs) => pairs.length
  | _ => 0

/-- The positional part of the array. -/
def storePositional (self : Option α) (fixed : List (Option α)) (fixedKw : Nat) :
    Option (PosSeq α) → Option (Option (Args2 α))
  | none => do
      let a ← (Args2.alloc (1 + fixed.length + fixedKw)).store (self.toList.map some)
      let a ← a.store fixed
      some (some a)
  | some (.array items) => do
      let a ← (Args2.alloc (1 + fixed.length + items.length + fixedKw)).store (self.toList.map some)
      let a ← a.store (fixed ++ items.map some)
      some (some a)
  | some (.iterator items _) => do
      let a ← (Args2.alloc (1 + fixed.length + fixedKw + 3)).store (self.toList.map some)
      let a ← a.store fixed
      storeItems a items

/-- The pairs of a dict after the sequence has been unpacked. -/
def pairsAfter (posSeq : Option (PosSeq α)) (pairs : List (Option (α × α))) :
    List (Option (α × α)) :=
  match posSeq with
  | some (.iterator _ effect) => effect pairs
  | _ => pairs

/-- The pairs of the mapping are stored. -/
def storeKwDict (posSeq : Option (PosSeq α)) (a : Args2 α) :
    Option (KwDict α) → Option (Option (Args2 α))
  | none => some (some a)
  | some (.dict pairs) => storeDict a (pairsAfter posSeq pairs)
  | some (.mapping pairs) => storeMapping a pairs

/-- What `mp_call_prepare_args_n_kw_var` gives for its array. -/
def Args2.received (fn : Option α) (posArgsLen : Nat) (a : Args2 α) : Received α :=
  { fn := fn
    positional := a.cells.take posArgsLen
    keywords := (a.cells.drop posArgsLen).take (2 * ((a.len - posArgsLen) / 2)) }

/-- `mp_call_prepare_args_n_kw_var`, for the fixed arguments and the two last ones. -/
def prepareArgs (objects : CallObjects α) (fn self : Option α) (fixed fixedKw : List (Option α))
    (posSeq kwDict : Option α) : Option (CallStart α) := do
  let posSeq := posSeq.map objects.sequence
  let kwDict := kwDict.map objects.mapping
  match ← storePositional self fixed (fixedKw.length + 2 * kwDictLen kwDict) posSeq with
  | none => some .raised
  | some a => do
      let posArgsLen := a.len
      let a ← a.store fixedKw
      match ← storeKwDict posSeq a kwDict with
      | none => some .raised
      | some a => some (.called (a.received fn posArgsLen))

/-! ## The virtual machine -/

/-- `DECODE_UINT`, with what has been decoded so far. -/
def decodeUint (config : EmitConfig) : List Nat → Nat → Nat
  | [], unum => unum
  | byte :: ip, unum =>
    let unum := (unum * 2 ^ 7 + byte % 2 ^ 7) % 2 ^ (8 * config.bytesPerWord)
    if byte / 2 ^ 7 % 2 = 1 then decodeUint config ip unum else unum

/-- The positional arguments in an operand. -/
def operandArgs (unum : Nat) : Nat := unum &&& 0xff

/-- The keyword arguments in an operand. -/
def operandKw (unum : Nat) : Nat := unum >>> 8 &&& 0xff

/-- The stack from `sp` on, after `sp` has gone down. -/
def stackFrom (stack : List (Option α)) (unum more : Nat) : List (Option α) :=
  stack.drop (stack.length - 1 - ((unum &&& 0xff) + (unum >>> 7 &&& 0x1fe) + more))

/-- `mp_call_function_n_kw`. -/
def callFunctionNKw (fn : Option α) (nArgs nKw : Nat) (args : List (Option α)) : CallStart α :=
  .called { fn := fn, positional := args.take nArgs, keywords := (args.drop nArgs).take (2 * nKw) }

/-- `mp_call_method_n_kw`. -/
def callMethodNKw (nArgs nKw : Nat) : List (Option α) → Option (CallStart α)
  | fn :: none :: args => some (callFunctionNKw fn nArgs nKw args)
  | fn :: some self :: args => some (callFunctionNKw fn (nArgs + 1) nKw (some self :: args))
  | _ => none

/-- `mp_call_method_n_kw_var`. -/
def callMethodNKwVar (objects : CallObjects α) (haveSelf : Bool) (unum : Nat)
    (args : List (Option α)) : Option (CallStart α) := do
  let fn ← args[0]?
  let self ← if haveSelf then args[1]? else some none
  let args := args.drop (if haveSelf then 2 else 1)
  let nArgs := operandArgs unum
  let nKw := operandKw unum
  let posSeq ← args[nArgs + 2 * nKw]?
  let kwDict ← args[nArgs + 2 * nKw + 1]?
  prepareArgs objects fn self (args.take nArgs) ((args.drop nArgs).take (2 * nKw)) posSeq kwDict

/-- The calls of `mp_execute_bytecode`. -/
def executeCall (config : EmitConfig) (objects : CallObjects α) (stack : List (Option α)) :
    List Nat → Option (CallStart α)
  | [] => none
  | opcode :: ip =>
    let unum := decodeUint config ip 0
    if opcode = 0x64 then
      match stackFrom stack unum 0 with
      | fn :: args => some (callFunctionNKw fn (operandArgs unum) (operandKw unum) args)
      | [] => none
    else if opcode = 0x65 then callMethodNKwVar objects false unum (stackFrom stack unum 2)
    else if opcode = 0x66 then
      callMethodNKw (operandArgs unum) (operandKw unum) (stackFrom stack unum 1)
    else if opcode = 0x67 then callMethodNKwVar objects true unum (stackFrom stack unum 3)
    else none

/-- A call from its compilation to the callee: a method is on the stack with the object that it is
called on, if it is bound to one. -/
def performCall (config : EmitConfig) (objects : CallObjects α) (below : List (Option α)) (fn : α)
    (method : Option (Option α)) (c : Compiled α) : Option (CallStart α) :=
  executeCall config objects (below ++ some fn :: method.toList ++ c.slots)
    (c.bytecode config method.isSome)

/-! ## What is written in a call -/

/-- The values of the positional arguments, comprehensions among them. -/
def positionalValues (args : List (Arg α)) : List α :=
  args.filterMap fun
    | .positional value | .comprehension value => some value
    | _ => none

/-- The keyword arguments. -/
def keywordPairs (args : List (Arg α)) : List (α × α) :=
  args.filterMap fun
    | .keyword (some name) value => some (name, value)
    | _ => none

/-- The value of the `*` argument. -/
def starOf (args : List (Arg α)) : Option α :=
  args.findSome? fun
    | .star value => some value
    | _ => none

/-- The value of the `**` argument. -/
def dblStarOf (args : List (Arg α)) : Option α :=
  args.findSome? fun
    | .dblStar value => some value
    | _ => none

/-- Pairs one after the other. -/
def flatPairs (pairs : List (α × α)) : List α := pairs.flatMap fun (key, value) => [key, value]

/-- The values that the arguments push, in the order of the arguments. -/
def pushedValues (args : List (Arg α)) : List α :=
  args.flatMap fun
    | .positional value | .comprehension value => [value]
    | .keyword (some name) value => [name, value]
    | _ => []

/-- The `*` argument gives some items, up to its end. -/
def SequenceGives (posSeq : Option (PosSeq α)) (items : List α) : Prop :=
  match posSeq with
  | none => items = []
  | some (.array given) => given = items
  | some (.iterator given _) => given = items.map some

/-- The `**` argument gives some pairs, up to its end; those of a dict are looked at after the
sequence. -/
def MappingGives (posSeq : Option (PosSeq α)) (kwDict : Option (KwDict α)) (pairs : List (α × α)) :
    Prop :=
  match kwDict with
  | none => pairs = []
  | some (.dict given) => pairsAfter posSeq given = pairs.map some
  | some (.mapping given) => given = pairs.map some

/-- What the callee of a call should receive. -/
def writtenCall (fn : α) (self : Option α) (extra : List α) (args : List (Arg α)) (items : List α)
    (pairs : List (α × α)) : Received α :=
  { fn := some fn
    positional := (self.toList ++ (extra ++ positionalValues args) ++ items).map some
    keywords := (flatPairs (keywordPairs args) ++ flatPairs pairs).map some }

/-- The positional arguments are pushed in front of the keyword arguments: no comprehension is behind
a keyword argument. -/
def PushedInOrder (args : List (Arg α)) : Prop :=
  pushedValues args = positionalValues args ++ flatPairs (keywordPairs args)

/-- The size of the array, after some items have been stored behind a length. -/
def grownAlloc (alloc len : Nat) : Nat → Nat
  | 0 => alloc
  | items + 1 => grownAlloc (if len ≥ alloc then alloc * 2 else alloc) (len + 1) items

/-- The number of pairs that are stored without a look at the size of the array: those of a dict. -/
def uncheckedPairs (posSeq : Option (PosSeq α)) : Option (KwDict α) → Nat
  | some (.dict pairs) => (pairsAfter posSeq pairs).length
  | _ => 0

/-- The array has room for the keyword arguments and the pairs of a dict: it has if the items come
from a tuple or list, and otherwise if it has been doubled for the items far enough. -/
def ArgsRoom (selfArgs nArgs nKw : Nat) (posSeq : Option (PosSeq α)) (kwDict : Option (KwDict α)) :
    Prop :=
  match posSeq with
  | some (.iterator items _) =>
    selfArgs + nArgs + items.length + 2 * nKw + 2 * uncheckedPairs posSeq kwDict ≤
      grownAlloc (1 + nArgs + (2 * nKw + 2 * kwDictLen kwDict) + 3) (selfArgs + nArgs) items.length
  | _ => True

instance (selfArgs nArgs nKw : Nat) (posSeq : Option (PosSeq α)) (kwDict : Option (KwDict α)) :
    Decidable (ArgsRoom selfArgs nArgs nKw posSeq kwDict) := by
  unfold ArgsRoom
  split <;> infer_instance

/-! ## Compilation -/

theorem length_flatPairs (pairs : List (α × α)) : (flatPairs pairs).length = 2 * pairs.length := by
  induction pairs with
  | nil => rfl
  | cons pair pairs ih =>
    rw [flatPairs, flatMap_cons, length_append, length_cons]
    rw [flatPairs] at ih
    rw [ih]
    simp only [length_cons, length_nil]
    omega

/-- What is known of the variables after the arguments have been compiled. -/
theorem compileArgs_spec {args : List (Arg α)} {start c : Compiled α}
    (accepted : compileArgs start args = .ok c) :
    c.pushed = start.pushed ++ pushedValues args ∧
      c.nPositional = start.nPositional + (positionalValues args).length ∧
      c.nKeyword = start.nKeyword + (keywordPairs args).length ∧
      c.starArgs = start.starArgs.or (starOf args) ∧
      c.dblstarArgs = start.dblstarArgs.or (dblStarOf args) := by
  induction args generalizing start with
  | nil =>
    cases accepted
    simp [pushedValues, positionalValues, keywordPairs, starOf, dblStarOf]
  | cons arg args ih =>
    rw [compileArgs] at accepted
    cases compiled : compileArg start arg with
    | error message =>
      rw [compiled] at accepted
      cases accepted
    | ok next =>
      rw [compiled] at accepted
      obtain ⟨pushed, positional, keyword, star, dblStar⟩ := ih accepted
      rw [pushed, positional, keyword, star, dblStar]
      cases arg with
      | positional value =>
        simp only [compileArg] at compiled
        split_ifs at compiled
        cases compiled
        simp [pushedValues, positionalValues, keywordPairs, starOf, dblStarOf, Nat.add_assoc,
          Nat.add_comm 1]
      | comprehension value =>
        cases compiled
        simp [pushedValues, positionalValues, keywordPairs, starOf, dblStarOf, Nat.add_assoc,
          Nat.add_comm 1]
      | keyword name value =>
        cases name with
        | none => cases compiled
        | some name =>
          cases compiled
          simp [pushedValues, positionalValues, keywordPairs, starOf, dblStarOf,
            Nat.add_assoc, Nat.add_comm 1]
      | star value =>
        simp only [compileArg] at compiled
        split_ifs at compiled with first
        cases compiled
        have none_ : start.starArgs = none := by simpa using first
        simp [pushedValues, positionalValues, keywordPairs, starOf, dblStarOf, none_]
      | dblStar value =>
        simp only [compileArg] at compiled
        split_ifs at compiled with first
        cases compiled
        have none_ : start.dblstarArgs = none := by simpa using first
        simp [pushedValues, positionalValues, keywordPairs, starOf, dblStarOf, none_]

theorem length_pushedValues (args : List (Arg α)) :
    (pushedValues args).length = (positionalValues args).length + 2 * (keywordPairs args).length := by
  induction args with
  | nil => rfl
  | cons arg args ih =>
    rw [pushedValues] at ih ⊢
    rw [flatMap_cons, length_append, ih]
    rcases arg with value | value | ⟨_ | name, value⟩ | value | value <;>
      simp [positionalValues, keywordPairs] <;> omega

/-! ## The array of arguments -/

/-- The array holds some arguments. -/
structure Args2.Holds (a : Args2 α) (contents : List (Option α)) : Prop where
  len : a.len = contents.length
  stored : contents <+: a.cells

section Array

variable {a : Args2 α} {contents : List (Option α)}

theorem Args2.Holds.le (holds : a.Holds contents) : contents.length ≤ a.cells.length :=
  holds.stored.length_le

theorem Args2.alloc_holds (args2Alloc : Nat) : (Args2.alloc args2Alloc : Args2 α).Holds [] :=
  ⟨rfl, nil_prefix⟩

section

variable (holds : a.Holds contents)

include holds

theorem Args2.Holds.store (items : List (Option α))
    (room : contents.length + items.length ≤ a.cells.length) :
    ∃ next, a.store items = some next ∧ next.Holds (contents ++ items) ∧
      next.cells.length = a.cells.length := by
  obtain ⟨cells, stored, kept, length⟩ := storeAt_contents holds.stored room
  refine ⟨{ cells := cells, len := a.len + items.length }, ?_, ⟨?_, kept⟩, length⟩
  · rw [Args2.store, holds.len, stored, map_some]
  · show a.len + items.length = _
    rw [holds.len, length_append]

theorem Args2.Holds.store_outside (items : List (Option α))
    (full : a.cells.length < contents.length + items.length) : a.store items = none := by
  rw [Args2.store, storeAt, if_neg (by rw [holds.len]; omega), map_none]

theorem Args2.Holds.realloc {newAlloc : Nat} (larger : contents.length ≤ newAlloc) :
    (a.realloc newAlloc).Holds contents :=
  ⟨holds.len, prefix_resized holds.stored larger _⟩

/-- The array is doubled for the items of an iterator. -/
theorem storeItems_spec (some_ : 0 < a.cells.length) (items : List α) :
    ∃ next, storeItems a (items.map some) = some (some next) ∧
      next.Holds (contents ++ items.map some) ∧
      next.cells.length = grownAlloc a.cells.length contents.length items.length := by
  induction items generalizing a contents with
  | nil => exact ⟨a, rfl, by rw [map_nil, append_nil]; exact holds, rfl⟩
  | cons item items ih =>
    have inside := holds.le
    -- The array that the item is stored in has a free cell.
    obtain ⟨grown, isGrown, grownHolds, size⟩ : ∃ grown : Args2 α,
        grown = (if a.len ≥ a.cells.length then a.realloc (a.cells.length * 2) else a) ∧
        grown.Holds contents ∧ grown.cells.length =
          if contents.length ≥ a.cells.length then a.cells.length * 2 else a.cells.length := by
      refine ⟨_, rfl, ?_⟩
      rw [holds.len]
      by_cases full : contents.length ≥ a.cells.length
      · rw [if_pos full, if_pos full]
        exact ⟨holds.realloc (by omega), length_resized _ _ _⟩
      · rw [if_neg full, if_neg full]
        exact ⟨holds, rfl⟩
    have room : contents.length + 1 ≤ grown.cells.length := by
      rw [size]
      split_ifs <;> omega
    obtain ⟨stored, stores, storedHolds, same⟩ := grownHolds.store [some item] room
    obtain ⟨next, rest, nextHolds, nextSize⟩ :=
      ih storedHolds (by omega : 0 < stored.cells.length)
    refine ⟨next, ?_, ?_, ?_⟩
    · simp only [map_cons, storeItems, ← isGrown, stores, bind_eq_bind,
        bind_some]
      exact rest
    · rw [append_assoc] at nextHolds
      exact nextHolds
    · rw [nextSize, same, size, length_append, length_singleton, length_cons,
        grownAlloc]

/-- The pairs of a dict are stored if there is room for all of them. -/
theorem storeDict_spec (pairs : List (α × α)) :
    if contents.length + 2 * pairs.length ≤ a.cells.length then
      ∃ next, storeDict a (pairs.map some) = some (some next) ∧
        next.Holds (contents ++ (flatPairs pairs).map some)
    else storeDict a (pairs.map some) = none := by
  induction pairs generalizing a contents with
  | nil =>
    rw [length_nil, Nat.mul_zero, Nat.add_zero, if_pos holds.le]
    exact ⟨a, rfl, by rw [flatPairs, flatMap_nil, map_nil, append_nil]; exact holds⟩
  | cons pair pairs ih =>
    obtain ⟨key, value⟩ := pair
    have flat : (flatPairs ((key, value) :: pairs)).map some =
        [some key, some value] ++ (flatPairs pairs).map some := rfl
    rw [length_cons, flat, ← append_assoc]
    by_cases here : contents.length + 2 ≤ a.cells.length
    · obtain ⟨stored, stores, storedHolds, same⟩ :=
        holds.store [some key, some value] here
      have rest := ih storedHolds
      have unfolds : storeDict a (((key, value) :: pairs).map some) =
          storeDict stored (pairs.map some) := by
        simp only [map_cons, storeDict, stores, bind_eq_bind, bind_some]
      rw [unfolds]
      rw [same, length_append] at rest
      have counts : contents.length + 2 * (pairs.length + 1) =
          contents.length + [some key, some value].length + 2 * pairs.length := by
        show _ = contents.length + 2 + 2 * pairs.length
        omega
      rw [counts]
      exact rest
    · rw [if_neg (by omega)]
      have outside := holds.store_outside [some key, some value]
        (by show _ < contents.length + 2; omega)
      simp only [map_cons, storeDict, outside, bind_eq_bind, bind_none]

/-- The array is made larger for the pairs of another mapping. -/
theorem storeMapping_spec (pairs : List (α × α)) :
    ∃ next, storeMapping a (pairs.map some) = some (some next) ∧
      next.Holds (contents ++ (flatPairs pairs).map some) := by
  induction pairs generalizing a contents with
  | nil =>
    exact ⟨a, rfl, by rw [flatPairs, flatMap_nil, map_nil, append_nil]; exact holds⟩
  | cons pair pairs ih =>
    obtain ⟨key, value⟩ := pair
    have inside := holds.le
    obtain ⟨grown, isGrown, grownHolds, room⟩ : ∃ grown : Args2 α,
        grown = (if a.len + 1 ≥ a.cells.length then
          a.realloc (if a.cells.length * 2 < 4 then 4 else a.cells.length * 2) else a) ∧
        grown.Holds contents ∧ contents.length + 2 ≤ grown.cells.length := by
      refine ⟨_, rfl, ?_⟩
      rw [holds.len]
      by_cases full : contents.length + 1 ≥ a.cells.length
      · rw [if_pos full]
        have larger : contents.length + 2 ≤
            if a.cells.length * 2 < 4 then 4 else a.cells.length * 2 := by
          split_ifs <;> omega
        exact ⟨holds.realloc (by omega), larger.trans_eq (length_resized _ _ _).symm⟩
      · rw [if_neg full]
        exact ⟨holds, by omega⟩
    obtain ⟨stored, stores, storedHolds, -⟩ :=
      grownHolds.store [some key, some value] room
    obtain ⟨next, rest, nextHolds⟩ := ih storedHolds
    refine ⟨next, ?_, ?_⟩
    · simp only [map_cons, storeMapping, ← isGrown, stores, bind_eq_bind,
        bind_some]
      exact rest
    · have flat : (flatPairs ((key, value) :: pairs)).map some =
          [some key, some value] ++ (flatPairs pairs).map some := rfl
      rw [flat, ← append_assoc]
      exact nextHolds

end

/-- The size of the array that the positional arguments are stored in. -/
def Args2.SizeFor (a : Args2 α) (selfArgs nArgs nItems kwRoom : Nat) : Option (PosSeq α) → Prop
  | some (.iterator _ _) =>
    a.cells.length = grownAlloc (1 + nArgs + kwRoom + 3) (selfArgs + nArgs) nItems
  | _ => selfArgs + nArgs + nItems + kwRoom ≤ a.cells.length

variable {posSeq : Option (PosSeq α)} {items : List α}

/-- The positional arguments are stored; the size of the array is known from the hints. -/
theorem storePositional_spec (self : Option α) (fixed : List (Option α)) (kwRoom : Nat)
    (gives : SequenceGives posSeq items) :
    ∃ next, storePositional self fixed kwRoom posSeq = some (some next) ∧
      next.Holds (self.toList.map some ++ fixed ++ items.map some) ∧
      next.SizeFor self.toList.length fixed.length items.length kwRoom posSeq := by
  have one : self.toList.length ≤ 1 := by cases self <;> simp
  -- The object that the method is called on and the fixed arguments, in a new array.
  have start : ∀ size, 1 + fixed.length ≤ size → ∃ first second : Args2 α,
      (Args2.alloc size).store (self.toList.map some) = some first ∧
      first.store fixed = some second ∧ first.Holds (self.toList.map some) ∧
      second.Holds (self.toList.map some ++ fixed) ∧ first.cells.length = size ∧
      second.cells.length = size := by
    intro size enough
    have new : (Args2.alloc size : Args2 α).cells.length = size := length_replicate
    obtain ⟨first, storesFirst, firstHolds, firstSize⟩ :=
      (Args2.alloc_holds size).store (self.toList.map some) (by
        rw [length_nil, length_map, new]
        omega)
    obtain ⟨second, storesSecond, secondHolds, secondSize⟩ := firstHolds.store fixed (by
      rw [length_append, length_nil, length_map, firstSize, new]
      omega)
    exact ⟨first, second, storesFirst, storesSecond, firstHolds, secondHolds, firstSize.trans new,
      (secondSize.trans firstSize).trans new⟩
  rcases posSeq with _ | ⟨given⟩ | ⟨given, effect⟩
  · cases gives
    obtain ⟨first, second, storesFirst, storesSecond, -, secondHolds, -, size⟩ :=
      start (1 + fixed.length + kwRoom) (by omega)
    refine ⟨second, ?_, by rw [map_nil, append_nil]; exact secondHolds, ?_⟩
    · simp only [storePositional, storesFirst, storesSecond, bind_eq_bind, bind_some]
    · show _ ≤ second.cells.length
      rw [size, length_nil]
      omega
  · cases gives
    obtain ⟨first, -, storesFirst, -, firstHolds, -, size, -⟩ :=
      start (1 + fixed.length + items.length + kwRoom) (by omega)
    obtain ⟨next, stores, nextHolds, nextSize⟩ :=
      firstHolds.store (fixed ++ items.map some) (by
        rw [length_append, length_map, length_map]
        omega)
    refine ⟨next, ?_, by rw [append_assoc]; exact nextHolds, ?_⟩
    · simp only [storePositional, storesFirst, stores, bind_eq_bind, bind_some]
    · show _ ≤ next.cells.length
      omega
  · cases gives
    obtain ⟨first, second, storesFirst, storesSecond, -, secondHolds, -, size⟩ :=
      start (1 + fixed.length + kwRoom + 3) (by omega)
    obtain ⟨next, stores, nextHolds, nextSize⟩ :=
      storeItems_spec secondHolds (by omega : 0 < second.cells.length) items
    refine ⟨next, ?_, nextHolds, ?_⟩
    · simp only [storePositional, storesFirst, storesSecond, stores, bind_eq_bind,
        bind_some]
    · show next.cells.length = _
      rw [nextSize, size, length_append, length_map]

theorem Args2.Holds.received {positional keywords : List (Option α)}
    (holds : a.Holds (positional ++ keywords)) {n : Nat} (even : keywords.length = 2 * n)
    (fn : Option α) :
    a.received fn positional.length =
      { fn := fn, positional := positional, keywords := keywords } := by
  obtain ⟨spare, cells⟩ := holds.stored
  have len : 2 * ((a.len - positional.length) / 2) = keywords.length := by
    rw [holds.len, length_append]
    omega
  rw [Args2.received, len, ← cells, append_assoc, take_left, drop_left,
    take_left]

variable {pairs : List (α × α)}

/-- The array that the positional arguments are stored in has room for what is stored behind them
without a look at its size. -/
theorem Args2.SizeFor.room_iff {kwDict : Option (KwDict α)} {selfArgs nArgs nKw : Nat}
    (size : a.SizeFor selfArgs nArgs items.length (2 * nKw + 2 * kwDictLen kwDict) posSeq)
    (sequence : SequenceGives posSeq items) (mapping : MappingGives posSeq kwDict pairs) :
    ArgsRoom selfArgs nArgs nKw posSeq kwDict ↔
      selfArgs + nArgs + items.length + 2 * nKw + 2 * uncheckedPairs posSeq kwDict ≤
        a.cells.length := by
  -- Nothing has changed a dict if no iterator has run.
  have hinted : (∀ given effect, posSeq ≠ some (.iterator given effect)) →
      uncheckedPairs posSeq kwDict ≤ kwDictLen kwDict := by
    intro other
    rcases kwDict with _ | ⟨given⟩ | ⟨given⟩
    · exact Nat.le_refl _
    · rcases posSeq with _ | ⟨items⟩ | ⟨items, effect⟩
      · exact Nat.le_refl _
      · exact Nat.le_refl _
      · exact absurd rfl (other items effect)
    · exact Nat.le_refl _
  rcases posSeq with _ | ⟨given⟩ | ⟨given, effect⟩
  · have size : selfArgs + nArgs + items.length + _ ≤ a.cells.length := size
    have hinted := hinted nofun
    exact ⟨fun _ => by omega, fun _ => trivial⟩
  · have size : selfArgs + nArgs + items.length + _ ≤ a.cells.length := size
    have hinted := hinted nofun
    exact ⟨fun _ => by omega, fun _ => trivial⟩
  · cases sequence
    have size : a.cells.length = _ := size
    rw [ArgsRoom, size, length_map]

/-- With room for them, all arguments are in the array; without, a store is outside of it. -/
theorem prepareArgs_spec {objects : CallObjects α} (fn self : Option α) (fixed : List (Option α))
    {fixedKw : List (Option α)} {nKw : Nat} (even : fixedKw.length = 2 * nKw)
    {posSeq kwDict : Option α} (sequence : SequenceGives (posSeq.map objects.sequence) items)
    (mapping : MappingGives (posSeq.map objects.sequence) (kwDict.map objects.mapping) pairs) :
    prepareArgs objects fn self fixed fixedKw posSeq kwDict =
      if ArgsRoom self.toList.length fixed.length nKw (posSeq.map objects.sequence)
          (kwDict.map objects.mapping) then
        some (.called { fn := fn
                        positional := self.toList.map some ++ fixed ++ items.map some
                        keywords := fixedKw ++ (flatPairs pairs).map some })
      else none := by
  rw [prepareArgs]
  generalize posSeq.map objects.sequence = posSeq at sequence mapping ⊢
  generalize kwDict.map objects.mapping = kwDict at mapping ⊢
  obtain ⟨a, stores, holds, size⟩ := storePositional_spec self fixed
    (fixedKw.length + 2 * kwDictLen kwDict) sequence
  have count : (self.toList.map some ++ fixed ++ items.map some).length =
      self.toList.length + fixed.length + items.length := by
    simp only [length_append, length_map]
  have pos := holds.len
  simp only [stores, bind_eq_bind, bind_some, pos]
  rw [even] at size
  have room := size.room_iff sequence mapping
  rw [← count, ← even] at room
  by_cases kwFits : (self.toList.map some ++ fixed ++ items.map some).length + fixedKw.length ≤
      a.cells.length
  · obtain ⟨stored, storesKw, storedHolds, same⟩ := holds.store fixedKw kwFits
    simp only [storesKw, bind_some]
    have received : ∀ {last : Args2 α}, last.Holds
        (self.toList.map some ++ fixed ++ items.map some ++ fixedKw ++ (flatPairs pairs).map some) →
        last.received fn (self.toList.map some ++ fixed ++ items.map some).length =
          { fn := fn
            positional := self.toList.map some ++ fixed ++ items.map some
            keywords := fixedKw ++ (flatPairs pairs).map some } := by
      intro last lastHolds
      rw [append_assoc _ fixedKw] at lastHolds
      refine @Args2.Holds.received _ last _ _ lastHolds (nKw + pairs.length) ?_ fn
      rw [length_append, even, length_map, length_flatPairs]
      omega
    rcases kwDict with _ | ⟨given⟩ | ⟨given⟩
    · cases mapping
      rw [if_pos (room.mpr kwFits)]
      have lastHolds : stored.Holds (self.toList.map some ++ fixed ++ items.map some ++ fixedKw ++
          (flatPairs ([] : List (α × α))).map some) := by
        rw [flatPairs, flatMap_nil, map_nil, append_nil]
        exact storedHolds
      simp only [storeKwDict, bind_some, received lastHolds]
    · have pairsGiven : pairsAfter posSeq given = pairs.map some := mapping
      have unchecked : uncheckedPairs posSeq (some (.dict given)) = pairs.length := by
        rw [uncheckedPairs, pairsGiven, length_map]
      have dict := storeDict_spec storedHolds pairs
      rw [length_append, same] at dict
      simp only [storeKwDict, pairsGiven]
      by_cases fits : (self.toList.map some ++ fixed ++ items.map some).length + fixedKw.length +
          2 * pairs.length ≤ a.cells.length
      · rw [if_pos fits] at dict
        obtain ⟨last, storesDict, lastHolds⟩ := dict
        rw [if_pos (room.mpr (unchecked.symm ▸ fits))]
        simp only [storesDict, bind_some, received lastHolds]
      · rw [if_neg fits] at dict
        rw [if_neg fun all => fits (unchecked ▸ room.mp all), dict, bind_none]
    · cases mapping
      rw [if_pos (room.mpr kwFits)]
      obtain ⟨last, storesMapping, lastHolds⟩ := storeMapping_spec storedHolds pairs
      simp only [storeKwDict, storesMapping, bind_some, received lastHolds]
  · rw [holds.store_outside fixedKw (by omega), bind_none,
      if_neg fun all => kwFits (by have := room.mp all; omega)]

end Array

/-! ## The operand -/

/-- The number that some groups of seven bits are, in front of which a number is. -/
def groupsValue (groups : List Nat) (front : Nat) : Nat :=
  groups.foldl (fun unum group => unum * 2 ^ 7 + group) front

theorem groupsValue_mod (groups : List Nat) (front modulus : Nat) :
    groupsValue groups (front % modulus) % modulus = groupsValue groups front % modulus := by
  induction groups generalizing front with
  | nil => exact Nat.mod_mod _ _
  | cons group groups ih =>
    show groupsValue groups (front % modulus * 2 ^ 7 + group) % modulus =
      groupsValue groups (front * 2 ^ 7 + group) % modulus
    rw [← ih (front % modulus * 2 ^ 7 + group),
      ← ih (front * 2 ^ 7 + group), Nat.add_mod, Nat.mod_mul_mod, ← Nat.add_mod]

theorem decodeUint_markGroups (config : EmitConfig) {groups : List Nat} (some_ : groups ≠ [])
    (small : ∀ group ∈ groups, group < 2 ^ 7) (front : Nat) :
    decodeUint config (markGroups groups) front =
      groupsValue groups front % 2 ^ (8 * config.bytesPerWord) := by
  induction groups generalizing front with
  | nil => exact absurd rfl some_
  | cons group groups ih =>
    have groupSmall : group < 2 ^ 7 := small group mem_cons_self
    cases groups with
    | nil =>
      rw [markGroups, decodeUint, if_neg (by omega), Nat.mod_eq_of_lt groupSmall]
      rfl
    | cons next groups =>
      have marked : (group + 128) / 2 ^ 7 % 2 = 1 := by omega
      have bits : (group + 128) % 2 ^ 7 = group := by omega
      rw [markGroups, decodeUint, if_pos marked, bits,
        ih (cons_ne_nil _ _)
          (fun other member => small other (mem_cons_of_mem _ member)),
        groupsValue_mod]
      · rfl
      · exact cons_ne_nil _ _

theorem uintGroups_value (room val : Nat) (rest : List Nat) :
    groupsValue (uintGroups room val rest) 0 = groupsValue rest (val % (2 ^ 7) ^ room) := by
  induction room generalizing val rest with
  | zero => rw [uintGroups, Nat.pow_zero, Nat.mod_one]
  | succ room ih =>
    have split : val % (2 ^ 7) ^ (room + 1) =
        val / 2 ^ 7 % (2 ^ 7) ^ room * 2 ^ 7 + val % 2 ^ 7 := by
      rw [Nat.pow_succ', Nat.mod_mul, Nat.mul_comm, Nat.add_comm]
    rw [uintGroups]
    by_cases last : val / 128 = 0
    · have high : val / 2 ^ 7 = 0 := last
      rw [if_pos last, split, high, Nat.zero_mod]
      rfl
    · rw [if_neg last, ih, split]
      rfl

theorem uintGroups_small (room val : Nat) {rest : List Nat} (small : ∀ group ∈ rest, group < 2 ^ 7) :
    ∀ group ∈ uintGroups room val rest, group < 2 ^ 7 := by
  induction room generalizing val rest with
  | zero => exact small
  | succ room ih =>
    have more : ∀ group ∈ val % 128 :: rest, group < 2 ^ 7 := by
      intro group member
      rcases mem_cons.mp member with rfl | later
      · exact Nat.mod_lt _ (by decide)
      · exact small group later
    rw [uintGroups]
    split_ifs
    · exact more
    · exact ih (val / 128) more

theorem uintGroups_ne_nil (room val : Nat) {rest : List Nat} (some_ : room ≠ 0 ∨ rest ≠ []) :
    uintGroups room val rest ≠ [] := by
  induction room generalizing val rest with
  | zero => exact some_.resolve_left (fun none_ => none_ rfl)
  | succ room ih =>
    rw [uintGroups]
    split_ifs
    · exact cons_ne_nil _ _
    · exact ih (val / 128) (.inr (cons_ne_nil _ _))

theorem decodeUint_uintBytes (config : EmitConfig) (val : Nat) :
    decodeUint config (uintBytes config val) 0 % 2 ^ 16 = val % 2 ^ 16 := by
  obtain ⟨room, isRoom, word⟩ : ∃ room, config.bytesForInt = room + 3 ∧
      16 ≤ 8 * config.bytesPerWord := by
    rw [EmitConfig.bytesForInt, EmitConfig.bytesPerWord]
    split_ifs
    · exact ⟨7, rfl, by decide⟩
    · exact ⟨2, rfl, by decide⟩
  have wordDivides : 2 ^ 16 ∣ 2 ^ (8 * config.bytesPerWord) := Nat.pow_dvd_pow 2 word
  have roomDivides : 2 ^ 16 ∣ (2 ^ 7) ^ (room + 3) := by
    rw [← Nat.pow_mul]
    exact Nat.pow_dvd_pow 2 (by omega)
  rw [uintBytes, isRoom, decodeUint_markGroups config (uintGroups_ne_nil _ _ (.inl (by omega)))
    (uintGroups_small _ _ fun _ member => absurd member not_mem_nil), uintGroups_value, Nat.mod_mod_of_dvd _ wordDivides]
  exact Nat.mod_mod_of_dvd _ roomDivides

theorem operand_down (unum : Nat) : unum >>> 7 &&& 0x1fe = 2 * operandKw unum := by
  have doubled : 2 * operandKw unum = operandKw unum <<< 1 := by
    rw [Nat.shiftLeft_eq, Nat.mul_comm, Nat.pow_one]
  rw [doubled, operandKw]
  apply Nat.eq_of_testBit_eq
  intro i
  cases i with
  | zero => simp
  | succ i =>
    rw [Nat.testBit_and, Nat.testBit_shiftRight, Nat.testBit_shiftLeft, Nat.testBit_and,
      Nat.testBit_shiftRight, Nat.testBit_succ 510]
    simp [Nat.add_comm]

theorem operandArgs_eq (unum : Nat) : operandArgs unum = unum % 256 :=
  Nat.and_two_pow_sub_one_eq_mod unum 8

theorem operandKw_eq (unum : Nat) : operandKw unum = unum / 256 % 256 := by
  rw [operandKw, Nat.shiftRight_eq_div_pow]
  exact Nat.and_two_pow_sub_one_eq_mod _ 8

theorem operand_counts {unum nPositional nKeyword : Nat}
    (low : unum % 2 ^ 16 = (nKeyword <<< 8 ||| nPositional) % 2 ^ 16) :
    operandArgs unum = nPositional % 256 ∧
      operandKw unum = (nKeyword ||| nPositional / 256) % 256 := by
  have lowByte : (nKeyword <<< 8 ||| nPositional) % 2 ^ 8 = nPositional % 2 ^ 8 := by
    rw [Nat.or_mod_two_pow, Nat.shiftLeft_eq, Nat.mul_mod_left, Nat.zero_or]
  have highByte : (nKeyword <<< 8 ||| nPositional) / 2 ^ 8 = nKeyword ||| nPositional / 2 ^ 8 := by
    rw [← Nat.shiftRight_eq_div_pow, ← Nat.shiftRight_eq_div_pow, Nat.shiftRight_or_distrib,
      Nat.shiftLeft_shiftRight]
  rw [operandArgs_eq, operandKw_eq]
  constructor
  · have same : nPositional % 256 = nPositional % 2 ^ 8 := rfl
    rw [same, ← lowByte]
    omega
  · have same : nKeyword ||| nPositional / 256 = nKeyword ||| nPositional / 2 ^ 8 := rfl
    rw [same, ← highByte]
    omega

theorem or_one_le : ∀ n < 256, n ||| 1 ≤ n + 1 := by decide +kernel

variable {nPositional nKeyword : Nat}

theorem counts_less (large : ¬(nPositional < 256 ∧ nKeyword < 256)) :
    nPositional % 256 + 2 * ((nKeyword ||| nPositional / 256) % 256) + 2 ≤
      nPositional + 2 * nKeyword := by
  have byte : (nKeyword ||| nPositional / 256) % 256 < 256 := Nat.mod_lt _ (by decide)
  by_cases keywords : nKeyword < 256
  · by_cases one : nPositional / 256 = 1
    · have or_ := or_one_le nKeyword keywords
      have less := Nat.mod_le (nKeyword ||| nPositional / 256) 256
      rw [one] at less ⊢
      omega
    · omega
  · omega

theorem counts_same (positional : nPositional < 256) (keyword : nKeyword < 256) :
    nPositional % 256 = nPositional ∧ (nKeyword ||| nPositional / 256) % 256 = nKeyword := by
  rw [Nat.div_eq_of_lt positional, Nat.or_zero]
  exact ⟨Nat.mod_eq_of_lt positional, Nat.mod_eq_of_lt keyword⟩

/-! ## From the stack to the callee -/

theorem stackFrom_append {front rest : List (Option α)} {unum more : Nat}
    (count : rest.length = operandArgs unum + 2 * operandKw unum + more + 1) :
    stackFrom (front ++ rest) unum more = rest := by
  have down : (unum &&& 0xff) + (unum >>> 7 &&& 0x1fe) + more =
      operandArgs unum + 2 * operandKw unum + more := by
    rw [operand_down, operandArgs]
  have place : (front ++ rest).length - 1 - (operandArgs unum + 2 * operandKw unum + more) =
      front.length := by
    rw [length_append]
    omega
  rw [stackFrom, down, place, drop_left]

theorem exists_parts {whole : List (Option α)} {h k : Nat} (inside : h + k ≤ whole.length) :
    ∃ front head args, whole = front ++ (head ++ args) ∧ head.length = h ∧ args.length = k := by
  refine ⟨whole.take (whole.length - (h + k)), (whole.drop (whole.length - (h + k))).take h,
    (whole.drop (whole.length - (h + k))).drop h, ?_, ?_, ?_⟩
  · rw [take_append_drop, take_append_drop]
  · rw [length_take, length_drop]
    omega
  · rw [length_drop, length_drop]
    omega

variable {args : List (Option α)}

/-- A call of a function or a method whose `*` and `**` arguments are unpacked. -/
theorem callMethodNKwVar_eq (objects : CallObjects α) {unum : Nat} (fn : Option α)
    (method : Option (Option α)) (star dblStar : Option α)
    (count : args.length = operandArgs unum + 2 * operandKw unum) :
    callMethodNKwVar objects method.isSome unum
        (fn :: method.toList ++ (args ++ [star, dblStar])) =
      prepareArgs objects fn method.join (args.take (operandArgs unum))
        (args.drop (operandArgs unum)) star dblStar := by
  have first : (args ++ [star, dblStar])[operandArgs unum + 2 * operandKw unum]? = some star := by
    rw [← count, getElem?_append_right (Nat.le_refl _), Nat.sub_self]
    rfl
  have second : (args ++ [star, dblStar])[operandArgs unum + 2 * operandKw unum + 1]? =
      some dblStar := by
    rw [← count, getElem?_append_right (Nat.le_add_right _ _), Nat.add_sub_cancel_left]
    rfl
  have fixed : (args ++ [star, dblStar]).take (operandArgs unum) = args.take (operandArgs unum) :=
    take_append_of_le_length (by omega)
  have fixedKw : ((args ++ [star, dblStar]).drop (operandArgs unum)).take (2 * operandKw unum) =
      args.drop (operandArgs unum) := by
    rw [drop_append_of_le_length (by omega)]
    exact take_left' (by rw [length_drop]; omega)
  cases method with
  | none =>
    simp only [callMethodNKwVar, isSome_none, toList_none, cons_append,
      nil_append, getElem?_cons_zero, Bool.false_eq_true, if_false, drop_succ_cons,
      drop_zero, first, second, fixed, fixedKw, bind_eq_bind, bind_some]
    rfl
  | some self =>
    simp only [callMethodNKwVar, isSome_some, toList_some, cons_append,
      nil_append, getElem?_cons_zero, getElem?_cons_succ, if_true,
      drop_succ_cons, drop_zero, first, second, fixed, fixedKw, bind_eq_bind,
      bind_some]
    rfl

theorem callMethodNKw_eq {nArgs nKw : Nat} (fn self : Option α)
    (count : args.length = nArgs + 2 * nKw) :
    callMethodNKw nArgs nKw (fn :: self :: args) =
      some (.called { fn := fn
                      positional := self.toList.map some ++ args.take nArgs
                      keywords := args.drop nArgs }) := by
  have all : (args.drop nArgs).take (2 * nKw) = args.drop nArgs :=
    take_of_length_le (by rw [length_drop]; omega)
  cases self with
  | none =>
    rw [callMethodNKw, callFunctionNKw, all]
    rfl
  | some self =>
    rw [callMethodNKw, callFunctionNKw, take_succ_cons, drop_succ_cons, all]
    rfl

section Execution

variable {config : EmitConfig} {objects : CallObjects α} {front args : List (Option α)} {ip : List Nat}
  {called : Option α} {method : Option (Option α)} {nArgs nKw : Nat}
  (counts : operandArgs (decodeUint config ip 0) = nArgs ∧ operandKw (decodeUint config ip 0) = nKw)
  (length : args.length = nArgs + 2 * nKw)

include counts length

theorem executeCall_plain :
    executeCall config objects (front ++ (called :: method.toList ++ args))
        ((if method.isSome then 0x66 else 0x64) :: ip) =
      some (.called { fn := called
                      positional := method.join.toList.map some ++ args.take nArgs
                      keywords := args.drop nArgs }) := by
  obtain ⟨rfl, rfl⟩ := counts
  cases method with
  | none =>
    have frame := @stackFrom_append _ front (called :: args) (decodeUint config ip 0) 0
      (by rw [length_cons, length])
    have all : (args.drop (operandArgs (decodeUint config ip 0))).take
        (2 * operandKw (decodeUint config ip 0)) =
        args.drop (operandArgs (decodeUint config ip 0)) :=
      take_of_length_le (by rw [length_drop]; omega)
    have stack : front ++ (called :: (none : Option (Option α)).toList ++ args) =
        front ++ called :: args := rfl
    rw [stack, executeCall]
    simp only [isSome_none, Bool.false_eq_true, if_false, if_true, frame, callFunctionNKw,
      all]
    rfl
  | some self =>
    have frame := @stackFrom_append _ front (called :: self :: args) (decodeUint config ip 0) 1
      (by rw [length_cons, length_cons, length])
    have stack : front ++ (called :: (some self).toList ++ args) =
        front ++ called :: self :: args := rfl
    rw [stack, executeCall]
    simp only [isSome_some, if_true, frame]
    exact callMethodNKw_eq called self length

theorem executeCall_var (star dblStar : Option α) :
    executeCall config objects (front ++ (called :: method.toList ++ (args ++ [star, dblStar])))
        ((if method.isSome then 0x67 else 0x65) :: ip) =
      prepareArgs objects called method.join (args.take nArgs) (args.drop nArgs) star dblStar := by
  obtain ⟨rfl, rfl⟩ := counts
  rw [← callMethodNKwVar_eq objects called method star dblStar length]
  cases method with
  | none =>
    have frame := @stackFrom_append _ front (called :: (args ++ [star, dblStar]))
      (decodeUint config ip 0) 2 (by
        rw [length_cons, length_append, length]
        rfl)
    have stack : front ++ (called :: (none : Option (Option α)).toList ++ (args ++ [star, dblStar])) =
        front ++ called :: (args ++ [star, dblStar]) := rfl
    rw [stack, executeCall]
    simp only [isSome_none, Bool.false_eq_true, if_false, if_true, frame]
    rfl
  | some self =>
    have frame := @stackFrom_append _ front (called :: self :: (args ++ [star, dblStar]))
      (decodeUint config ip 0) 3 (by
        rw [length_cons, length_cons, length_append, length]
        rfl)
    have stack : front ++ (called :: (some self).toList ++ (args ++ [star, dblStar])) =
        front ++ called :: self :: (args ++ [star, dblStar]) := rfl
    rw [stack, executeCall]
    simp only [isSome_some, if_true, frame]
    rfl

end Execution

theorem Compiled.bytecode_eq (config : EmitConfig) (isMethod : Bool) (c : Compiled α) :
    c.bytecode config isMethod =
      (if c.starFlags then if isMethod then 0x67 else 0x65 else if isMethod then 0x66 else 0x64) ::
        uintBytes config (c.nKeyword <<< 8 ||| c.nPositional) := by
  cases isMethod <;> cases flags : c.starFlags <;>
    simp [Compiled.bytecode, EmitCall.writes, callFunctionMethodHelper, flags]

theorem exists_head {head : List (Option α)} {method : Option (Option α)}
    (length : head.length = 1 + method.toList.length) :
    ∃ called other, head = called :: Option.toList other ∧ other.isSome = method.isSome := by
  cases method with
  | none =>
    obtain ⟨called, rfl⟩ := length_eq_one_iff.mp length
    exact ⟨called, none, rfl, rfl⟩
  | some self =>
    obtain ⟨called, self, rfl⟩ := length_eq_two.mp length
    exact ⟨called, some self, rfl, rfl⟩

/-- What the callee receives is a part of the stack with as many arguments as the operand has, and
what is unpacked; it is what has been pushed if these are all of them. -/
theorem performCall_spec (config : EmitConfig) (objects : CallObjects α) (below : List (Option α))
    (fn : α) (method : Option (Option α)) (c : Compiled α)
    (counts : c.pushed.length = c.nPositional + 2 * c.nKeyword) {nArgs nKw : Nat}
    (isArgs : nArgs = c.nPositional % 256) (isKw : nKw = (c.nKeyword ||| c.nPositional / 256) % 256)
    {items : List α} {pairs : List (α × α)}
    (sequence : SequenceGives (c.starArgs.map objects.sequence) items)
    (mapping : MappingGives (c.starArgs.map objects.sequence) (c.dblstarArgs.map objects.mapping)
      pairs) :
    ∃ (called self : Option α) (args : List (Option α)), args.length = nArgs + 2 * nKw ∧
      (nArgs + 2 * nKw = c.pushed.length →
        called = some fn ∧ self = method.join ∧ args = c.pushed.map some) ∧
      performCall config objects below fn method c =
        if ArgsRoom self.toList.length nArgs nKw (c.starArgs.map objects.sequence)
            (c.dblstarArgs.map objects.mapping) then
          some (.called { fn := called
                          positional := self.toList.map some ++ args.take nArgs ++ items.map some
                          keywords := args.drop nArgs ++ (flatPairs pairs).map some })
        else none := by
  have read := @operand_counts
    (decodeUint config (uintBytes config (c.nKeyword <<< 8 ||| c.nPositional)) 0)
    c.nPositional c.nKeyword (decodeUint_uintBytes config _)
  rw [← isArgs, ← isKw] at read
  have enough : nArgs + 2 * nKw ≤ c.pushed.length := by
    rw [isArgs, isKw, counts]
    by_cases small : c.nPositional < 256 ∧ c.nKeyword < 256
    · obtain ⟨samePositional, sameKeyword⟩ := counts_same small.1 small.2
      rw [samePositional, sameKeyword]
    · exact le_trans (Nat.le_add_right _ 2) (counts_less small)
  obtain ⟨front, head, args, whole, headLength, argsLength⟩ :=
    @exists_parts _ (below ++ (some fn :: method.toList) ++ c.pushed.map some)
      (1 + method.toList.length) (nArgs + 2 * nKw) (by
        simp only [length_append, length_cons, length_map]
        omega)
  obtain ⟨called, other, rfl, isMethod⟩ := exists_head headLength
  -- If all arguments are read, the function is where it has been pushed.
  have aligned : nArgs + 2 * nKw = c.pushed.length →
      called = some fn ∧ other = method ∧ args = c.pushed.map some := by
    intro all
    rw [← append_assoc] at whole
    obtain ⟨before, same⟩ := append_inj' whole (by rw [argsLength, length_map, all])
    obtain ⟨-, headIs⟩ := append_inj' before (by
      rw [headLength, length_cons]
      omega)
    obtain ⟨calledIs, otherIs⟩ := cons.inj headIs
    refine ⟨calledIs.symm, ?_, same.symm⟩
    cases other <;> cases method <;> simp_all
  have stack : below ++ some fn :: method.toList ++ c.slots = front ++
      (called :: other.toList ++ (args ++
        if c.starFlags then [c.starArgs, c.dblstarArgs] else [])) := by
    rw [Compiled.slots, ← append_assoc, whole]
    simp only [append_assoc]
  refine ⟨called, other.join, args, argsLength, fun all => ?_, ?_⟩
  · obtain ⟨calledIs, otherIs, argsAre⟩ := aligned all
    exact ⟨calledIs, congrArg join otherIs, argsAre⟩
  rw [performCall, stack, Compiled.bytecode_eq, ← isMethod]
  cases flags : c.starFlags with
  | false =>
    obtain ⟨noStar, noDblStar⟩ : c.starArgs = none ∧ c.dblstarArgs = none := by
      simpa [Compiled.starFlags] using flags
    rw [noStar] at sequence
    rw [noDblStar] at mapping
    cases sequence
    cases mapping
    have room : ArgsRoom other.join.toList.length nArgs nKw (c.starArgs.map objects.sequence)
        (c.dblstarArgs.map objects.mapping) := by
      rw [noStar]
      trivial
    rw [if_pos room, if_neg Bool.false_ne_true, if_neg Bool.false_ne_true, append_nil,
      executeCall_plain read argsLength, map_nil, append_nil]
    exact congrArg _ (congrArg _ (congrArg _ (append_nil _).symm))
  | true =>
    have even : (args.drop nArgs).length = 2 * nKw := by
      rw [length_drop]
      omega
    have fixed : (args.take nArgs).length = nArgs := by
      rw [length_take]
      omega
    rw [if_pos rfl, if_pos rfl, executeCall_var read argsLength,
      prepareArgs_spec called other.join (args.take nArgs) even sequence mapping, fixed]

/-! ## Calls as they are written -/

/-- The condition under which a call passes what is written: both counts fit into their bytes, no
comprehension is behind a keyword argument, and the array has room. -/
def CallFits (objects : CallObjects α) (method : Option (Option α)) (extra : List α)
    (args : List (Arg α)) : Prop :=
  (extra.length + (positionalValues args).length < 256 ∧ (keywordPairs args).length < 256) ∧
    PushedInOrder args ∧
    ArgsRoom method.join.toList.length (extra.length + (positionalValues args).length)
      (keywordPairs args).length ((starOf args).map objects.sequence)
      ((dblStarOf args).map objects.mapping)

/-- A call that the compiler accepts passes exactly what is written, and stores nothing outside of the
array of its arguments, if and only if it fits. -/
theorem performCall_exact_iff (config : EmitConfig) (objects : CallObjects α)
    (below : List (Option α)) (fn : α) (method : Option (Option α)) (extra : List α)
    (args : List (Arg α)) (c : Compiled α) (accepted : compileTrailerParen extra args = .ok c)
    (items : List α) (pairs : List (α × α))
    (sequence : SequenceGives ((starOf args).map objects.sequence) items)
    (mapping : MappingGives ((starOf args).map objects.sequence)
      ((dblStarOf args).map objects.mapping) pairs) :
    performCall config objects below fn method c =
        some (.called (writtenCall fn method.join extra args items pairs)) ↔
      CallFits objects method extra args := by
  obtain ⟨pushed, positional, keyword, star, dblStar⟩ := compileArgs_spec accepted
  dsimp only at pushed positional
  rw [Nat.zero_add] at keyword
  rw [none_or] at star dblStar
  have length := length_pushedValues args
  have counts : c.pushed.length = c.nPositional + 2 * c.nKeyword := by
    rw [pushed, length_append]
    omega
  rw [CallFits, ← positional, ← keyword, ← star, ← dblStar]
  rw [← star] at sequence mapping
  rw [← dblStar] at mapping
  obtain ⟨called, self, read, readLength, aligned, performs⟩ :=
    performCall_spec config objects below fn method c counts rfl rfl sequence mapping
  rw [performs, writtenCall]
  constructor
  · intro same
    split_ifs at same with room
    have received := CallStart.called.inj (some.inj same)
    have positionalIs := congrArg Received.positional received
    have keywordsAre := congrArg Received.keywords received
    dsimp only at positionalIs keywordsAre
    -- With counts that do not fit, less arguments are received than written.
    have small : c.nPositional < 256 ∧ c.nKeyword < 256 := by
      by_contra large
      have less := counts_less large
      have positionalLength := congrArg List.length positionalIs
      have keywordLength := congrArg List.length keywordsAre
      have one : self.toList.length ≤ 1 := by cases self <;> simp
      have taken : (read.take (c.nPositional % 256)).length = c.nPositional % 256 := by
        rw [length_take]
        omega
      simp only [length_append, length_map, taken, length_drop,
        length_flatPairs] at positionalLength keywordLength
      omega
    obtain ⟨samePositional, sameKeyword⟩ := counts_same small.1 small.2
    rw [samePositional, sameKeyword] at aligned room
    rw [samePositional] at positionalIs keywordsAre
    obtain ⟨-, rfl, rfl⟩ := aligned counts.symm
    refine ⟨small, ?_, room⟩
    rw [← map_take, ← map_append, ← map_append] at positionalIs
    rw [← map_drop, ← map_append] at keywordsAre
    have injective := some_injective α
    have front := append_cancel_right (map_injective_iff.mpr injective positionalIs)
    have taken := append_cancel_left front
    have dropped := append_cancel_right (map_injective_iff.mpr injective keywordsAre)
    have all := take_append_drop c.nPositional c.pushed
    rw [taken, dropped, pushed, append_assoc] at all
    exact (append_cancel_left all).symm
  · rintro ⟨small, ordered, room⟩
    obtain ⟨samePositional, sameKeyword⟩ := counts_same small.1 small.2
    rw [samePositional, sameKeyword] at aligned ⊢
    obtain ⟨rfl, rfl, rfl⟩ := aligned counts.symm
    have split : c.pushed = (extra ++ positionalValues args) ++ flatPairs (keywordPairs args) := by
      rw [pushed, ordered, append_assoc]
    have frontLength : (extra ++ positionalValues args).length = c.nPositional := by
      rw [length_append, positional]
    rw [if_pos room, ← map_take, ← map_drop, split, take_left' frontLength,
      drop_left' frontLength]
    simp only [map_append]

/-- Objects whose iterators give some items, and whose dicts hold some pairs. -/
def simpleObjects (items : List α) (pairs : List (α × α)) : CallObjects α where
  sequence _ := .iterator (items.map some) id
  mapping _ := .dict (pairs.map some)

/-- The configuration of a machine of 32 bits. -/
def smallConfig : EmitConfig where
  persistentCode := false
  cacheMapLookup := false
  sourceLine := true
  debugVmStackOverflow := false
  builtinsSet := true
  wide := false

/-- A method with a keyword argument, an iterator of two items and a dict of one pair. -/
theorem performCall_exact_method :
    performCall smallConfig (simpleObjects [10, 11] [(20, 21)]) [none] 1 (some (some 2))
        { pushed := [3, 4, 5], nPositional := 1, nKeyword := 1, starArgs := some 6,
          dblstarArgs := some 7 } =
      some (.called (writtenCall 1 (some 2) []
        [.positional 3, .keyword (some 4) 5, .star 6, .dblStar 7] [10, 11] [(20, 21)])) := by
  refine (performCall_exact_iff smallConfig (simpleObjects [10, 11] [(20, 21)]) [none] 1
    (some (some 2)) [] [.positional 3, .keyword (some 4) 5, .star 6, .dblStar 7] _ rfl [10, 11]
    [(20, 21)] rfl rfl).mpr ?_
  exact ⟨⟨by decide, by decide⟩, rfl, by decide⟩

theorem compileArgs_positional (c : Compiled α) (unstarred : c.starFlags = false)
    (noKeywords : c.nKeyword = 0) (values : List α) :
    compileArgs c (values.map .positional) =
      .ok { c with pushed := c.pushed ++ values, nPositional := c.nPositional + values.length } := by
  induction values generalizing c with
  | nil => simp [compileArgs]
  | cons value values ih =>
    have pushed : compileArg c (.positional value) =
        .ok { c with pushed := c.pushed ++ [value], nPositional := c.nPositional + 1 } := by
      rw [compileArg, unstarred, noKeywords]
      rfl
    have rest := ih
      { c with pushed := c.pushed ++ [value], nPositional := c.nPositional + 1 } unstarred
      noKeywords
    rw [append_assoc, Nat.add_assoc, Nat.add_comm 1] at rest
    rw [map_cons, compileArgs, pushed]
    exact rest

theorem compileTrailerParen_positional (values : List α) :
    compileTrailerParen [] (values.map .positional) =
      .ok { pushed := values, nPositional := values.length, nKeyword := 0, starArgs := none,
            dblstarArgs := none } := by
  rw [compileTrailerParen, compileArgs_positional _ rfl rfl]
  simp only [nil_append, length_nil, Nat.zero_add]

/-- A keyword argument does not fit behind five items of an iterator; of 256 positional arguments, one
is taken for the function; and a comprehension behind a keyword argument becomes its value. -/
theorem performCall_inexact :
    compileTrailerParen [] [.keyword (some 4) 5, .star 6] =
        .ok { pushed := [4, 5], nPositional := 0, nKeyword := 1, starArgs := some 6,
              dblstarArgs := none } ∧
      performCall smallConfig (simpleObjects [10, 11, 12, 13, 14] []) [] 1 none
        { pushed := [4, 5], nPositional := 0, nKeyword := 1, starArgs := some 6,
          dblstarArgs := none } = none ∧
      compileTrailerParen [] ((List.range 256).map .positional) =
        .ok { pushed := List.range 256, nPositional := 256, nKeyword := 0, starArgs := none,
              dblstarArgs := none } ∧
      performCall smallConfig (simpleObjects [] []) [] 1 none
        { pushed := List.range 256, nPositional := 256, nKeyword := 0, starArgs := none,
          dblstarArgs := none } =
        some (.called { fn := some 253, positional := [], keywords := [some 254, some 255] }) ∧
      compileTrailerParen [] [.keyword (some 4) 5, .comprehension 6] =
        .ok { pushed := [4, 5, 6], nPositional := 1, nKeyword := 1, starArgs := none,
              dblstarArgs := none } ∧
      performCall smallConfig (simpleObjects [] []) [] 1 none
        { pushed := [4, 5, 6], nPositional := 1, nKeyword := 1, starArgs := none,
          dblstarArgs := none } =
        some (.called { fn := some 1, positional := [some 4], keywords := [some 5, some 6] }) := by
  refine ⟨rfl, by decide +kernel, ?_, by decide +kernel, rfl, by decide +kernel⟩
  rw [compileTrailerParen_positional, length_range]

end MultiPython.Vm
