import MultiPython.Logic.Run

/-!
# Interned strings

The functions of `py/qstr.c`. The pools of a context are a list with the newest first; a
pool entry points into the constant data of the firmware, or to an offset in a chunk of the
context's heap. Chunks are objects of their own, so a pointer to a chunk that was freed
points to nothing, and reading through it is an error (`none`). What the allocator does in a
call is told to the function: whether each allocation succeeds, and whether it collects
garbage first. The collector keeps a chunk only if it finds a pointer to its start,
and `qstr_last_chunk` is not among its roots.
-/

namespace MultiPython.Qstr

/-- `MICROPY_QSTR_BYTES_IN_HASH`, `MICROPY_QSTR_BYTES_IN_LEN`,
`MICROPY_ALLOC_QSTR_CHUNK_INIT`, the width of `mp_uint_t`, and whether there is a
`MICROPY_QSTR_EXTRA_POOL`. -/
structure QstrConfig where
  bytesInHash : Nat
  bytesInLen : Nat
  chunkInit : Nat
  wordBits : Nat
  extraPool : Bool
deriving DecidableEq, Repr

/-- `MICROPY_ALLOC_QSTR_ENTRIES_INIT`. -/
def allocQstrEntriesInit : Nat := 10

/-- Where the data of a qstr is: in constant memory, or in a chunk. -/
inductive QPtr where
  | rom (data : List UInt8)
  | chunk (id offset : Nat)
deriving DecidableEq, Repr

/-- `qstr_pool_t` without its link; its `len` is the length of `qstrs`. -/
structure QstrPool where
  totalPrevLen : Nat
  alloc : Nat
  qstrs : List QPtr
deriving DecidableEq, Repr

/-- The pools and the string memory of a context. -/
structure QstrState where
  /-- `last_pool` and the pools behind it. -/
  pools : List QstrPool
  chunks : Nat → Option (List UInt8)
  /-- The number of chunks so far. -/
  created : Nat
  /-- `qstr_last_chunk`. -/
  lastChunk : Option Nat
  /-- `qstr_last_alloc`. -/
  lastAlloc : Nat
  /-- `qstr_last_used`. -/
  lastUsed : Nat

/-! ## The data of a qstr -/

/-- The low bytes of a number, lowest first. -/
def lowBytes : Nat → Nat → List UInt8
  | 0, _ => []
  | count + 1, n => UInt8.ofNat n :: lowBytes count (n >>> 8)

/-- The number that bytes hold, lowest first. -/
def fromBytes : List UInt8 → Nat
  | [] => 0
  | byte :: rest => byte.toNat + 256 * fromBytes rest

variable (config : QstrConfig)

/-- `Q_HASH_MASK`, as a modulus. -/
def hashBound : Nat := 256 ^ config.bytesInHash

def qstrComputeHash (data : List UInt8) : Nat :=
  let hash := data.foldl
    (fun hash byte => (((hash <<< 5) + hash) ^^^ byte.toNat) % 2 ^ config.wordBits) 5381
  let hash := hash % hashBound config
  if hash = 0 then hash + 1 else hash

def qGetHash (data : List UInt8) : Nat := fromBytes (data.take config.bytesInHash)

def qGetLength (data : List UInt8) : Nat :=
  fromBytes ((data.drop config.bytesInHash).take config.bytesInLen)

def qGetData (data : List UInt8) : List UInt8 := data.drop (config.bytesInHash + config.bytesInLen)

/-- The bytes that stand for an interned string: hash, length, data and a zero. -/
def encode (str : List UInt8) : List UInt8 :=
  lowBytes config.bytesInHash (qstrComputeHash config str) ++
    (lowBytes config.bytesInLen str.length ++ (str ++ [0]))

/-- The number of these bytes. -/
def encodeSize (str : List UInt8) : Nat := config.bytesInHash + config.bytesInLen + str.length + 1

/-- `MP_QSTR_NULL`: the entry that is no qstr, with a hash that no string has. -/
def nullEntry : List UInt8 :=
  List.replicate config.bytesInHash 0 ++ (List.replicate config.bytesInLen 0 ++ [0])

/-- The test of `qstr_find_strn`. -/
def isStrn (str data : List UInt8) : Bool :=
  qGetHash config data == qstrComputeHash config str && qGetLength config data == str.length &&
    (qGetData config data).take str.length == str

/-! ## Allocation -/

/-- An allocation: the collection before it, with the chunks that the collector takes for
referenced on its own account, and whether it succeeds. -/
structure Allocation where
  collects : Option (Nat → Bool)
  succeeds : Bool

/-- The allocations of one call: growing the chunk in place, a new chunk, one of the exact
size, and a new pool. New memory holds `fill`. -/
structure Allocations where
  grows : Bool
  chunk : Allocation
  exact : Allocation
  pool : Allocation
  fill : Nat → UInt8

namespace QstrState

variable (s : QstrState)

/-- The bytes from a pointer on. -/
def read : QPtr → Option (List UInt8)
  | .rom data => some data
  | .chunk id offset => (s.chunks id).map (List.drop offset)

/-- A pool has a pointer to the start of a chunk. -/
def headStored (id : Nat) : Bool := s.pools.any fun pool => pool.qstrs.contains (.chunk id 0)

/-- A garbage collection: a chunk survives if a pool points to its start, or if it is among
`kept`. -/
def gcCollect (kept : Nat → Bool) : QstrState :=
  { s with chunks := fun id => if s.headStored id || kept id then s.chunks id else none }

/-- The collection before an allocation; `rooted` is on the stack. -/
def collecting (rooted : Option QPtr) (allocation : Allocation) : QstrState :=
  match allocation.collects with
  | none => s
  | some kept => s.gcCollect fun id => kept id || rooted == some (.chunk id 0)

/-- A new chunk. -/
def newChunk (size : Nat) (fill : Nat → UInt8) : QstrState :=
  { s with
    chunks := Function.update s.chunks s.created (some ((List.range size).map fill))
    created := s.created + 1
    lastChunk := some s.created
    lastAlloc := size
    lastUsed := 0 }

/-- Write bytes into a chunk. -/
def write (id offset : Nat) (data : List UInt8) : Option QstrState := do
  let bytes ← s.chunks id
  if offset + data.length ≤ bytes.length then
    some
      { s with
        chunks := Function.update s.chunks id
          (some (bytes.take offset ++ (data ++ bytes.drop (offset + data.length)))) }
  else
    none

/-! ## The functions -/

/-- The inner loop of `qstr_find_strn`. -/
def qstrFindInPool (str : List UInt8) : Nat → List QPtr → Option (Option Nat)
  | _, [] => some none
  | index, q :: rest => do
      let data ← s.read q
      if isStrn config str data then some (some index) else qstrFindInPool str (index + 1) rest

/-- The outer loop of `qstr_find_strn`. -/
def qstrFindInPools (str : List UInt8) : List QstrPool → Option Nat
  | [] => some 0
  | pool :: prev => do
      match ← s.qstrFindInPool config str 0 pool.qstrs with
      | some index => some (pool.totalPrevLen + index)
      | none => qstrFindInPools str prev

def qstrFindStrn (str : List UInt8) : Option Nat := s.qstrFindInPools config str s.pools

def findQstr : List QstrPool → Nat → Option QPtr
  | [], _ => none
  | pool :: prev, q => if q < pool.totalPrevLen then findQstr prev q else
      pool.qstrs[q - pool.totalPrevLen]?

def qstrData (q : Nat) : Option (List UInt8) := do
  let data ← s.read (← findQstr s.pools q)
  some ((qGetData config data).take (qGetLength config data))

/-- Store a pointer in the newest pool, which has to have room for it. -/
def qstrStore (q : QPtr) : Option (QstrState × Except Nat Nat) :=
  match s.pools with
  | [] => none
  | last :: prev =>
    if last.qstrs.length < last.alloc then
      some ({ s with pools := { last with qstrs := last.qstrs ++ [q] } :: prev },
        .ok (last.totalPrevLen + last.qstrs.length))
    else
      none

/-- `qstr_add`; an error is a call of `m_malloc_fail`. -/
def qstrAdd (q : QPtr) (allocation : Allocation) : Option (QstrState × Except Nat Nat) :=
  match s.pools with
  | [] => none
  | last :: _ =>
    if last.alloc ≤ last.qstrs.length then
      let newAlloc := if config.extraPool then max allocQstrEntriesInit (last.alloc * 2)
        else last.alloc * 2
      let s := s.collecting (some q) allocation
      if allocation.succeeds then
        let pool : QstrPool := ⟨last.totalPrevLen + last.qstrs.length, newAlloc, []⟩
        { s with pools := pool :: s.pools }.qstrStore q
      else
        some (s, .error newAlloc)
    else
      s.qstrStore q

/-- The chunk has no room for the bytes. -/
def full (nBytes : Nat) : Bool := s.lastChunk.isSome && decide (s.lastAlloc < s.lastUsed + nBytes)

/-- The first part of `qstr_from_strn`: a chunk without enough room is grown, or trimmed and
left. -/
def qstrGrow (nBytes : Nat) (allocations : Allocations) : Option QstrState :=
  match s.lastChunk with
  | none => some s
  | some id =>
    if s.full nBytes then do
      let bytes ← s.chunks id
      if allocations.grows then
        some
          { s with
            chunks := Function.update s.chunks id
              (some (bytes ++ (List.range nBytes).map allocations.fill))
            lastAlloc := s.lastAlloc + nBytes }
      else
        some
          { s with
            chunks := Function.update s.chunks id (some (bytes.take s.lastUsed))
            lastChunk := none }
    else
      some s

/-- The second part: a new chunk, if there is none to go on with; `false` if it cannot be
allocated. -/
def qstrNewChunk (nBytes : Nat) (allocations : Allocations) : QstrState × Bool :=
  match s.lastChunk with
  | some _ => (s, true)
  | none =>
    let s := s.collecting none allocations.chunk
    if allocations.chunk.succeeds then
      (s.newChunk (max nBytes config.chunkInit) allocations.fill, true)
    else
      let s := s.collecting none allocations.exact
      if allocations.exact.succeeds then
        (s.newChunk nBytes allocations.fill, true)
      else
        (s, false)

def qstrFromStrn (str : List UInt8) (allocations : Allocations) :
    Option (QstrState × Except Nat Nat) := do
  let q ← s.qstrFindStrn config str
  if q ≠ 0 then
    some (s, .ok q)
  else
    let nBytes := encodeSize config str
    let s ← s.qstrGrow nBytes allocations
    let (s, allocated) := s.qstrNewChunk config nBytes allocations
    if allocated then
      let id ← s.lastChunk
      let offset := s.lastUsed
      let s ← { s with lastUsed := s.lastUsed + nBytes }.write id offset (encode config str)
      s.qstrAdd config (.chunk id offset) allocations.pool
    else
      some (s, .error nBytes)

end QstrState

/-! ## A context that interns strings -/

/-- The strings of the constant pool behind `MP_QSTR_NULL`, and those of the extra pool of the
frozen modules. -/
structure ConstPools where
  base : List (List UInt8)
  extra : Option (List (List UInt8))

/-- All constant strings, in the order of their qstrs. -/
def ConstPools.strings (consts : ConstPools) : List (List UInt8) :=
  consts.base ++ consts.extra.getD []

/-- The constant pools as they are linked: `mp_qstr_const_pool`, and the pool that `mpy-tool.py`
generates in front of it. -/
def ConstPools.pools (consts : ConstPools) : List QstrPool :=
  let base : QstrPool := ⟨0, allocQstrEntriesInit,
    .rom (nullEntry config) :: consts.base.map fun str => .rom (encode config str)⟩
  match consts.extra with
  | none => [base]
  | some strings =>
    [⟨base.qstrs.length, min strings.length 10, strings.map fun str => .rom (encode config str)⟩,
      base]

/-- The state of a context, and the qstrs that have been given out for strings; those of the
constant pools are known from the start. -/
structure Interner where
  memory : QstrState
  known : List (List UInt8 × Nat)

/-- What can happen to it: a call, or a collection with the chunks that the collector takes for
referenced on other accounts. -/
inductive QstrEvent where
  | qstrFromStrn (str : List UInt8) (allocations : Allocations)
  | gcCollect (kept : Nat → Bool)

namespace Interner

/-- The state after `qstr_init`. -/
def qstrInit (consts : ConstPools) : Interner where
  memory :=
    { pools := consts.pools config
      chunks := fun _ => none
      created := 0
      lastChunk := none
      lastAlloc := 0
      lastUsed := 0 }
  known := consts.strings.zipIdx 1

/-- One event. -/
def next (s : Interner) : QstrEvent → Option Interner
  | .qstrFromStrn str allocations => do
      match ← s.memory.qstrFromStrn config str allocations with
      | (memory, .ok q) => some ⟨memory, s.known ++ [(str, q)]⟩
      | (memory, .error _) => some { s with memory := memory }
  | .gcCollect kept => some { s with memory := s.memory.gcCollect kept }

/-- The strings are as short as the `assert` of `qstr_from_strn` demands. -/
def Fits : QstrEvent → Prop
  | .qstrFromStrn str _ => str.length < 2 ^ (8 * config.bytesInLen)
  | .gcCollect _ => True

instance (event : QstrEvent) : Decidable (Fits config event) :=
  match event with
  | .qstrFromStrn str _ => inferInstanceAs (Decidable (str.length < 2 ^ (8 * config.bytesInLen)))
  | .gcCollect _ => .isTrue trivial

/-- An event that the `assert` lets happen. -/
def Step (s : Interner) (event : QstrEvent) (after : Interner) : Prop :=
  Fits config event ∧ s.next config event = some after

end Interner

end MultiPython.Qstr
