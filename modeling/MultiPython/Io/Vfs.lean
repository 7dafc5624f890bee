import MultiPython.Logic.Run

/-!
# The mount table

`extmod/vfs.c`: file systems are mounted, unmounted and looked up by the path of a file, whatever
their methods do. A path is the bytes of a C string. A method that mounts or unmounts in turn is a
call before the mount it is called from, or one after the `umount` or `chdir`.
-/

namespace MultiPython.Io

open Logic List

section Model

variable {Obj : Type}

def slash : Nat := 0x2F

/-- `mp_vfs_mount_t`, with its address in place of the link to the next one. -/
structure MpVfsMount (Obj : Type) where
  ref : Nat
  str : List Nat
  obj : Obj
deriving DecidableEq

/-- What `vfs_cur` holds: `MP_VFS_NONE`, `MP_VFS_ROOT` or a mount. -/
inductive Vfs (Obj : Type) where
  | none
  | root
  | mount (vfs : MpVfsMount Obj)
deriving DecidableEq

def Vfs.isRoot : Vfs Obj → Bool
  | .root => true
  | _ => false

/-- `vfs_mount_table` and `vfs_cur`. -/
structure VfsState (Obj : Type) where
  table : List (MpVfsMount Obj)
  cur : Vfs Obj

/-- As `mp_init` leaves it. -/
def VfsState.initial : VfsState Obj := ⟨[], .root⟩

/-- The loop of `mp_vfs_lookup_path`, with the path behind a leading slash. -/
def lookupLoop (isAbs : Bool) (path : List Nat) :
    List (MpVfsMount Obj) → Option (MpVfsMount Obj × List Nat)
  | [] => none
  | vfs :: next =>
    let len := vfs.str.length - 1
    if len = 0 then some (vfs, if isAbs then slash :: path else path)
    else if vfs.str.tail <+: path ∧ path[len]? = some slash then some (vfs, path.drop len)
    else if vfs.str.tail <+: path ∧ path[len]? = none then some (vfs, [slash])
    else lookupLoop isAbs path next

/-- `mp_vfs_lookup_path`. It leaves `path_out` as it was where the result is no mount. -/
def mpVfsLookupPath (s : VfsState Obj) (path : List Nat) : Vfs Obj × List Nat :=
  let isAbs : Bool := path.head? = some slash
  if isAbs ∨ s.cur.isRoot then
    let inner := if isAbs then path.tail else path
    if inner = [] then (.root, [])
    else
      match lookupLoop isAbs inner s.table with
      | some found => (.mount found.1, found.2)
      | none => if isAbs then (.none, []) else (s.cur, path)
  else (s.cur, path)

/-- An `OSError`, or what a method of a file system raises. -/
inductive VfsError where
  | eperm | einval | enodev | method
deriving DecidableEq

/-- Insert a mount in front of those at the root. -/
def insertMount (vfs : MpVfsMount Obj) : List (MpVfsMount Obj) → List (MpVfsMount Obj)
  | [] => [vfs]
  | first :: next =>
    if first.str.length = 1 then vfs :: first :: next else first :: insertMount vfs next

/-- `mp_vfs_mount`, with whether the `mount` method of the object raises an exception. -/
def mpVfsMount (s : VfsState Obj) (vfs : MpVfsMount Obj) (raises : Bool) :
    Option VfsError × VfsState Obj :=
  if raises then (some .method, s)
  else
    match (mpVfsLookupPath s vfs.str).1 with
    | .mount existing =>
      if vfs.str.length ≠ 1 ∧ existing.str.length = 1 then
        (none, { s with table := insertMount vfs s.table })
      else (some .eperm, s)
    | _ => (none, { s with table := insertMount vfs s.table })

/-- Whether `mnt`, a mount point or an object, is that of a mount. -/
def MpVfsMount.isMnt [DecidableEq Obj] (mnt : List Nat ⊕ Obj) (vfs : MpVfsMount Obj) : Bool :=
  mnt = .inl vfs.str ∨ mnt = .inr vfs.obj

def mpVfsUmount [DecidableEq Obj] (s : VfsState Obj) (mnt : List Nat ⊕ Obj) (raises : Bool) :
    Option VfsError × VfsState Obj :=
  match s.table.find? (MpVfsMount.isMnt mnt) with
  | none => (some .einval, s)
  | some vfs =>
    let isCur : Bool := match s.cur with
      | .mount cur => cur.ref = vfs.ref
      | _ => false
    (if raises then some .method else none,
      { table := s.table.eraseP (MpVfsMount.isMnt mnt), cur := if isCur then .root else s.cur })

/-- `mp_vfs_chdir`. It has changed `vfs_cur` by the time that a path turns out to be missing. -/
def mpVfsChdir (s : VfsState Obj) (path : List Nat) (raises : Bool) :
    Option VfsError × VfsState Obj :=
  let vfs := (mpVfsLookupPath s path).1
  let error := match vfs with
    | .none => some .enodev
    | .root => if raises && s.table.any (·.str.length = 1) then some .method else none
    | .mount _ => if raises then some .method else none
  (error, { s with cur := vfs })

/-- `mp_vfs_getcwd` in a mount, from what the `getcwd` method of the file system returns. -/
def MpVfsMount.getcwd (vfs : MpVfsMount Obj) (cwd : List Nat) : List Nat :=
  if vfs.str.length = 1 then cwd else vfs.str ++ if cwd = [slash] then [] else cwd

/-- The calls that change the state. -/
inductive VfsCall (Obj : Type) where
  | mount (vfs : MpVfsMount Obj) (raises : Bool)
  | umount (mnt : List Nat ⊕ Obj) (raises : Bool)
  | chdir (path : List Nat) (raises : Bool)

/-- A call and the state after it. Mount points have a leading slash, as `mp_vfs_mount_t` says, and
a new mount has an address of its own. -/
inductive VfsState.Step [DecidableEq Obj] (s : VfsState Obj) : VfsCall Obj → VfsState Obj → Prop where
  | mount {vfs raises} (leading : vfs.str.head? = some slash)
      (fresh : ∀ other ∈ s.table, other.ref ≠ vfs.ref) :
      s.Step (.mount vfs raises) (mpVfsMount s vfs raises).2
  | umount {mnt raises} : s.Step (.umount mnt raises) (mpVfsUmount s mnt raises).2
  | chdir {path raises} : s.Step (.chdir path raises) (mpVfsChdir s path raises).2

/-- A mount contains its mount point and what is below it. At the root it contains every path. -/
def MpVfsMount.Contains (vfs : MpVfsMount Obj) (path : List Nat) : Prop :=
  vfs.str = [slash] ∨ path = vfs.str ∨ vfs.str ++ [slash] <+: path

/-- No mount is hidden by one in front of it, those at the root apart, and `vfs_cur` is mounted. -/
structure VfsState.Ordered (s : VfsState Obj) : Prop where
  leading : ∀ vfs ∈ s.table, vfs.str.head? = some slash
  refs : s.table.Pairwise fun first later => later.ref ≠ first.ref
  unhidden : s.table.Pairwise fun first later => first.Contains later.str → later.str = [slash]
  cur : ∀ vfs, s.cur = .mount vfs → vfs ∈ s.table

end Model

section Lookup

variable {Obj : Type} {s : VfsState Obj} {vfs other : MpVfsMount Obj} {path : List Nat}

theorem eq_root_of_length (leading : vfs.str.head? = some slash) (short : vfs.str.length ≤ 1) :
    vfs.str = [slash] := by
  cases vfs with
  | mk ref str obj => cases str with
    | nil => simp at leading
    | cons first rest =>
      obtain rfl : rest = [] := by simpa using short
      simpa using leading

/-- Of two mounts that contain a path, the one with the longer mount point is within the other. -/
theorem MpVfsMount.Contains.of_length_le (leading : vfs.str.head? = some slash)
    (outer : vfs.Contains path) (inner : other.Contains path)
    (shorter : vfs.str.length ≤ other.str.length) : vfs.Contains other.str := by
  rcases inner with atRoot | rfl | below
  · exact .inl (eq_root_of_length leading (by simpa [atRoot] using shorter))
  · exact outer
  · rcases outer with atRoot | rfl | above
    · exact .inl atRoot
    · have := below.length_le
      simp at this
      omega
    · have nested := prefix_of_prefix_length_le above below (by simpa using shorter)
      rcases prefix_concat_iff.mp nested with same | within
      · exact .inr (.inl (append_cancel_right same).symm)
      · exact .inr (.inr within)

theorem contains_iff {inner : List Nat} (hasInner : vfs.str = slash :: inner) :
    vfs.Contains (slash :: path) ↔ inner = [] ∨ path = inner ∨ inner ++ [slash] <+: path := by
  simp [MpVfsMount.Contains, hasInner, cons_prefix_cons]

/-- The loop stops at a mount that contains the path. -/
theorem lookupLoop_here (next : List (MpVfsMount Obj)) (leading : vfs.str.head? = some slash)
    (here : vfs.Contains (slash :: path)) :
    ∃ rest, lookupLoop true path (vfs :: next) = some (vfs, rest) ∧
      (slash :: path = vfs.getcwd rest ∨ slash :: path = vfs.getcwd rest ++ [slash]) := by
  obtain ⟨inner, hasInner⟩ := head?_eq_some_iff.mp leading
  rcases (contains_iff hasInner).mp here with rfl | rfl | ⟨rest, rfl⟩
  · exact ⟨slash :: path, by simp [lookupLoop, hasInner], by simp [MpVfsMount.getcwd, hasInner]⟩
  · cases path with
    | nil => exact ⟨[slash], by simp [lookupLoop, hasInner], by simp [MpVfsMount.getcwd, hasInner]⟩
    | cons first later =>
      exact ⟨[slash], by simp [lookupLoop, hasInner], by simp [MpVfsMount.getcwd, hasInner]⟩
  · cases inner with
    | nil => exact ⟨slash :: slash :: rest, by simp [lookupLoop, hasInner],
        by simp [MpVfsMount.getcwd, hasInner]⟩
    | cons first later =>
      refine ⟨slash :: rest, by simp [lookupLoop, hasInner], ?_⟩
      cases rest <;> simp [MpVfsMount.getcwd, hasInner]

/-- The loop passes a mount that does not contain the path. -/
theorem lookupLoop_next (next : List (MpVfsMount Obj)) (leading : vfs.str.head? = some slash)
    (elsewhere : ¬ vfs.Contains (slash :: path)) :
    lookupLoop true path (vfs :: next) = lookupLoop true path next := by
  obtain ⟨inner, hasInner⟩ := head?_eq_some_iff.mp leading
  rw [contains_iff hasInner, not_or, not_or] at elsewhere
  obtain ⟨notRoot, notPoint, notBelow⟩ := elsewhere
  have notSlash : ¬ (inner <+: path ∧ path[inner.length]? = some slash) := by
    rintro ⟨⟨rest, rfl⟩, isSlash⟩
    cases rest with
    | nil => simp at isSlash
    | cons first later =>
      obtain rfl : first = slash := by simpa using isSlash
      exact notBelow ⟨later, by simp⟩
  have notEnd : inner <+: path → ¬ path.length ≤ inner.length := fun isPart short =>
    notPoint (isPart.eq_of_length_le short).symm
  simp only [lookupLoop, hasInner, length_cons, Nat.add_sub_cancel, tail_cons, length_eq_zero_iff,
    notRoot, notSlash, getElem?_eq_none_iff, if_false]
  exact if_neg fun both => notEnd both.1 both.2

/-- The lookup of an absolute path finds the first mount that contains it, and `getcwd` puts the
path together again. -/
theorem lookupLoop_cases {table : List (MpVfsMount Obj)} (path : List Nat)
    (leading : ∀ vfs ∈ table, vfs.str.head? = some slash) :
    (lookupLoop true path table = none ∧ ∀ vfs ∈ table, ¬ vfs.Contains (slash :: path)) ∨
      ∃ front vfs back rest, table = front ++ vfs :: back ∧
        lookupLoop true path table = some (vfs, rest) ∧ vfs.Contains (slash :: path) ∧
        (∀ other ∈ front, ¬ other.Contains (slash :: path)) ∧
        (slash :: path = vfs.getcwd rest ∨ slash :: path = vfs.getcwd rest ++ [slash]) := by
  induction table with
  | nil => exact .inl ⟨rfl, by simp⟩
  | cons vfs next ih =>
    by_cases here : vfs.Contains (slash :: path)
    · obtain ⟨rest, found, joined⟩ := lookupLoop_here next (leading vfs mem_cons_self) here
      exact .inr ⟨[], vfs, next, rest, rfl, found, here, by simp, joined⟩
    · rw [lookupLoop_next next (leading vfs mem_cons_self) here]
      rcases ih (fun other member => leading other (mem_cons_of_mem _ member)) with
        ⟨missing, nowhere⟩ | ⟨front, found, back, rest, rfl, isFound, contains, before, joined⟩
      · exact .inl ⟨missing, forall_mem_cons.mpr ⟨here, nowhere⟩⟩
      · exact .inr ⟨vfs :: front, found, back, rest, rfl, isFound, contains,
          forall_mem_cons.mpr ⟨here, before⟩, joined⟩

theorem mem_of_lookupLoop {table : List (MpVfsMount Obj)} {isAbs : Bool}
    {found : MpVfsMount Obj × List Nat} (isFound : lookupLoop isAbs path table = some found) :
    found.1 ∈ table := by
  induction table with
  | nil => cases isFound
  | cons vfs next ih =>
    simp only [lookupLoop] at isFound
    split_ifs at isFound
    any_goals cases isFound; exact mem_cons_self
    exact mem_cons_of_mem _ (ih isFound)

namespace VfsState.Ordered

variable (ordered : s.Ordered)

include ordered

/-- What `mp_vfs_lookup_path` returns is in the table. -/
theorem mem_of_lookup (isFound : (mpVfsLookupPath s path).1 = .mount vfs) : vfs ∈ s.table := by
  simp only [mpVfsLookupPath] at isFound
  split_ifs at isFound
  · split at isFound
    · cases isFound
      exact mem_of_lookupLoop ‹_›
    · cases isFound
  · split at isFound
    · cases isFound
      exact mem_of_lookupLoop ‹_›
    · exact ordered.cur vfs isFound
  · exact ordered.cur vfs isFound

theorem lookup_cases (absolute : path.head? = some slash) (file : path ≠ [slash]) :
    (mpVfsLookupPath s path = (.none, []) ∧ ∀ vfs ∈ s.table, ¬ vfs.Contains path) ∨
      ∃ vfs rest, mpVfsLookupPath s path = (.mount vfs, rest) ∧ vfs ∈ s.table ∧ vfs.Contains path ∧
        (path = vfs.getcwd rest ∨ path = vfs.getcwd rest ++ [slash]) ∧
        ∀ other ∈ s.table, other.Contains path → other = vfs ∨
          other.str.length < vfs.str.length ∨ other.str = [slash] ∧ vfs.str = [slash] := by
  obtain ⟨inner, rfl⟩ := head?_eq_some_iff.mp absolute
  have some_ : inner ≠ [] := by simpa using file
  rcases lookupLoop_cases inner ordered.leading with
    ⟨missing, nowhere⟩ | ⟨front, vfs, back, rest, split, found, here, before, joined⟩
  · exact .inl ⟨by simp [mpVfsLookupPath, some_, missing], nowhere⟩
  have member : vfs ∈ s.table := by simp [split]
  refine .inr ⟨vfs, rest, by simp [mpVfsLookupPath, some_, found], member, here, joined, ?_⟩
  intro other isOther contains
  by_cases shorter : other.str.length < vfs.str.length
  · exact .inr (.inl shorter)
  have outer := here.of_length_le (ordered.leading vfs member) contains (not_lt.mp shorter)
  rw [split, mem_append, mem_cons] at isOther
  rcases isOther with inFront | rfl | behind
  · exact absurd contains (before other inFront)
  · exact .inl rfl
  · have unhidden := ordered.unhidden
    rw [split, pairwise_append, pairwise_cons] at unhidden
    have atRoot := unhidden.2.1.1 other behind outer
    exact .inr (.inr ⟨atRoot, eq_root_of_length (ordered.leading vfs member)
      (by simpa [atRoot] using shorter)⟩)

theorem mount_cases (leading : vfs.str.head? = some slash) :
    (mpVfsMount s vfs false = (some .eperm, s) ∧
      ∃ other ∈ s.table, other.Contains vfs.str ∧ other.str ≠ [slash]) ∨
    (mpVfsMount s vfs false = (none, { s with table := insertMount vfs s.table }) ∧
      ∀ other ∈ s.table, other.Contains vfs.str → other.str = [slash]) := by
  by_cases atRoot : vfs.str = [slash]
  · refine .inr ⟨by simp [mpVfsMount, mpVfsLookupPath, atRoot], fun other member contains => ?_⟩
    rcases contains with isRoot | same | below
    · exact isRoot
    · exact same ▸ atRoot
    · have short := below.length_le
      simp only [atRoot, length_append, length_singleton] at short
      exact eq_root_of_length (ordered.leading other member) (by omega)
  rcases ordered.lookup_cases leading atRoot with
    ⟨missing, nowhere⟩ | ⟨existing, rest, found, member, here, -, longest⟩
  · exact .inr ⟨by simp [mpVfsMount, missing], fun other isOther contains =>
      absurd contains (nowhere other isOther)⟩
  have long : vfs.str.length ≠ 1 := fun short => atRoot (eq_root_of_length leading short.le)
  by_cases isRoot : existing.str.length = 1
  · refine .inr ⟨by simp [mpVfsMount, found, long, isRoot], fun other isOther contains => ?_⟩
    refine eq_root_of_length (ordered.leading other isOther) ?_
    rcases longest other isOther contains with rfl | shorter | ⟨otherRoot, -⟩
    · exact isRoot.le
    · omega
    · simp [otherRoot]
  · refine .inl ⟨by simp [mpVfsMount, found, isRoot], existing, member, here, fun atRoot => ?_⟩
    simp [atRoot] at isRoot

/-- A mount goes in front of those at the root. -/
theorem insertMount_split (vfs : MpVfsMount Obj) : ∃ front back, s.table = front ++ back ∧
    insertMount vfs s.table = front ++ vfs :: back ∧ (∀ other ∈ front, other.str ≠ [slash]) ∧
      ∀ other ∈ back, other.str = [slash] := by
  have leading := ordered.leading
  have unhidden := ordered.unhidden
  generalize s.table = table at leading unhidden
  induction table with
  | nil => exact ⟨[], [], rfl, rfl, by simp, by simp⟩
  | cons first next ih =>
    obtain ⟨hides, unhidden⟩ := pairwise_cons.mp unhidden
    by_cases short : first.str.length = 1
    · have atRoot := eq_root_of_length (leading first mem_cons_self) short.le
      refine ⟨[], first :: next, rfl, by simp [insertMount, short], by simp, ?_⟩
      exact forall_mem_cons.mpr ⟨atRoot, fun other member => hides other member (.inl atRoot)⟩
    · obtain ⟨front, back, rfl, inserted, apart, roots⟩ :=
        ih (fun other member => leading other (mem_cons_of_mem _ member)) unhidden
      refine ⟨first :: front, back, rfl, by simp [insertMount, short, inserted], ?_, roots⟩
      exact forall_mem_cons.mpr ⟨fun atRoot => short (by simp [atRoot]), apart⟩

theorem mount (leading : vfs.str.head? = some slash)
    (fresh : ∀ other ∈ s.table, other.ref ≠ vfs.ref)
    (clear : ∀ other ∈ s.table, other.Contains vfs.str → other.str = [slash]) :
    VfsState.Ordered { s with table := insertMount vfs s.table } := by
  obtain ⟨front, back, split, inserted, apart, roots⟩ := ordered.insertMount_split vfs
  have members : ∀ other, other ∈ insertMount vfs s.table ↔ other = vfs ∨ other ∈ s.table := by
    intro other
    rw [inserted, split]
    simp [or_left_comm]
  have refs := ordered.refs
  have unhidden := ordered.unhidden
  rw [split, pairwise_append] at refs unhidden
  constructor
  · intro other member
    rcases (members other).mp member with rfl | old
    · exact leading
    · exact ordered.leading other old
  · rw [inserted, pairwise_append, pairwise_cons]
    refine ⟨refs.1, ⟨fun other behind => fresh other (by simp [split, behind]), refs.2.1⟩, ?_⟩
    intro other before
    refine forall_mem_cons.mpr ⟨(fresh other (by simp [split, before])).symm, refs.2.2 other before⟩
  · rw [inserted, pairwise_append, pairwise_cons]
    refine ⟨unhidden.1, ⟨fun other behind _ => roots other behind, unhidden.2.1⟩, ?_⟩
    intro other before
    refine forall_mem_cons.mpr ⟨fun hides => ?_, unhidden.2.2 other before⟩
    exact absurd (clear other (by simp [split, before]) hides) (apart other before)
  · intro other isCur
    exact (members other).mpr (.inr (ordered.cur other isCur))

theorem umount [DecidableEq Obj] (mnt : List Nat ⊕ Obj) (raises : Bool) :
    (mpVfsUmount s mnt raises).2.Ordered := by
  simp only [mpVfsUmount]
  split
  · exact ordered
  rename_i vfs isFound
  obtain ⟨isMnt, front, back, split, before⟩ := find?_eq_some_iff_append.mp isFound
  have removed : s.table.eraseP (MpVfsMount.isMnt mnt) = front ++ back := by
    rw [split, eraseP_append_right _ (by simpa using before), eraseP_cons_of_pos isMnt]
  have fewer : front ++ back <+ s.table := by
    rw [split]
    exact (sublist_cons_self vfs back).append_left front
  refine ⟨?_, ?_, ?_, ?_⟩
  · exact fun other member => ordered.leading other (fewer.mem (removed ▸ member))
  · exact removed ▸ ordered.refs.sublist fewer
  · exact removed ▸ ordered.unhidden.sublist fewer
  · intro other isCur
    simp only [removed] at isCur ⊢
    split_ifs at isCur with keeps
    rw [isCur] at keeps
    have member := ordered.cur other isCur
    rw [split, mem_append, mem_cons] at member
    rcases member with inFront | rfl | behind
    · exact mem_append_left back inFront
    · simp at keeps
    · exact mem_append_right front behind

theorem chdir (path : List Nat) (raises : Bool) : (mpVfsChdir s path raises).2.Ordered :=
  ⟨ordered.leading, ordered.refs, ordered.unhidden, fun _ => ordered.mem_of_lookup⟩

/-- Every call keeps the table in order. -/
theorem step [DecidableEq Obj] {call : VfsCall Obj} {after : VfsState Obj}
    (stepped : s.Step call after) : after.Ordered := by
  cases stepped with
  | @mount vfs raises leading fresh =>
    cases raises with
    | true => exact ordered
    | false =>
      rcases ordered.mount_cases leading with ⟨refused, -⟩ | ⟨mounted, clear⟩
      · exact refused ▸ ordered
      · exact mounted ▸ ordered.mount leading fresh clear
  | umount => exact ordered.umount _ _
  | chdir => exact ordered.chdir _ _

end VfsState.Ordered

/-- Whatever is mounted, unmounted and changed to, the mounts stay in order. -/
theorem VfsState.ordered_of_run [DecidableEq Obj] {run : List (VfsCall Obj × VfsState Obj)}
    (runs : Run VfsState.Step .initial run) : ∀ s ∈ visited .initial run, s.Ordered := by
  refine runs.invariant VfsState.Ordered ⟨?_, ?_, ?_, ?_⟩ fun ordered stepped => ordered.step stepped
  all_goals simp [VfsState.initial]

/-- In every run a file system whose own `mount` method succeeds is refused exactly if a mount that
is not at the root contains its mount point, and `vfs_cur` is a mount of the table, if any. -/
theorem mount_refused_iff [DecidableEq Obj] {run : List (VfsCall Obj × VfsState Obj)}
    (runs : Run VfsState.Step .initial run) :
    ∀ s ∈ visited .initial run, (∀ vfs, s.cur = .mount vfs → vfs ∈ s.table) ∧
      ∀ vfs : MpVfsMount Obj, vfs.str.head? = some slash →
        ((mpVfsMount s vfs false).1 = some .eperm ↔
          ∃ other ∈ s.table, other.Contains vfs.str ∧ other.str ≠ [slash]) := by
  intro s visits
  have ordered := VfsState.ordered_of_run runs s visits
  refine ⟨ordered.cur, fun vfs leading => ?_⟩
  rcases ordered.mount_cases leading with ⟨refused, inUse⟩ | ⟨mounted, clear⟩
  · simp [refused, inUse]
  · rw [mounted]
    refine ⟨nofun, ?_⟩
    rintro ⟨other, member, contains, notRoot⟩
    exact absurd (clear other member contains) notRoot

/-- A mount below another one. -/
theorem mount_refused_below :
    let flash : MpVfsMount Nat := ⟨2, [slash, 97], 11⟩
    let s := (mpVfsMount .initial flash false).2
    (mpVfsMount s ⟨3, [slash, 97, slash, 98], 12⟩ false).1 = some .eperm := by
  intro flash s
  have runs : Run VfsState.Step .initial [(.mount flash false, s)] :=
    .cons (.mount rfl (by decide)) .nil
  refine ((mount_refused_iff runs s (by simp [visited])).2 ⟨3, _, 12⟩ rfl).mpr ⟨flash, ?_, ?_, ?_⟩
  · decide
  · exact .inr (.inr (by decide))
  · decide

/-- In every run the `umount` of a mount point that has just been mounted puts everything back. -/
theorem umount_of_mount [DecidableEq Obj] {run : List (VfsCall Obj × VfsState Obj)}
    (runs : Run VfsState.Step .initial run) :
    ∀ s ∈ visited .initial run, ∀ (vfs : MpVfsMount Obj) after, vfs.str.head? = some slash →
      (∀ other ∈ s.table, other.ref ≠ vfs.ref) → mpVfsMount s vfs false = (none, after) →
        ∀ raises, (mpVfsUmount after (.inl vfs.str) raises).2 = s := by
  intro s visits vfs after leading fresh accepted raises
  have ordered := VfsState.ordered_of_run runs s visits
  rcases ordered.mount_cases leading with ⟨refused, -⟩ | ⟨mounted, clear⟩
  · simp [refused] at accepted
  obtain ⟨front, back, split, inserted, apart, -⟩ := ordered.insertMount_split vfs
  obtain rfl := (Prod.mk.inj (mounted.symm.trans accepted)).2
  have before : ∀ other ∈ front, ¬ MpVfsMount.isMnt (.inl vfs.str) other := by
    intro other member isMnt
    have same : vfs.str = other.str := by simpa [MpVfsMount.isMnt] using isMnt
    exact apart other member (clear other (by simp [split, member]) (.inr (.inl same)))
  have here : MpVfsMount.isMnt (.inl vfs.str) vfs := by simp [MpVfsMount.isMnt]
  simp only [mpVfsUmount, inserted, find?_append, find?_eq_none.mpr before, Option.none_or,
    find?_cons_of_pos here, eraseP_append_right _ before, eraseP_cons_of_pos here, ← split]
  rcases s with ⟨table, _ | _ | cur⟩
  · rfl
  · rfl
  · simp [fresh cur (ordered.cur cur rfl)]

/-- With a file system that raises an exception. -/
theorem umount_of_mount_raises :
    let flash : MpVfsMount Nat := ⟨2, [slash, 97], 11⟩
    (mpVfsUmount (mpVfsMount .initial flash false).2 (.inl [slash, 97]) true).2 = .initial :=
  umount_of_mount .nil .initial (by simp [visited]) ⟨2, _, 11⟩ _ rfl nofun rfl true

end Lookup

end MultiPython.Io
