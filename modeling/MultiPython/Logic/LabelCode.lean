import Mathlib

/-!
# Code with labels

A list of instructions, some of which assign a label to their own place. An instruction goes on to
the next one, jumps to the place of a label, or ends the run. `PieceAt` says that a piece of code is
a part of a whole one; `Reaches` are the runs of the whole code, which are composed with
`Reaches.trans`. A label has the place where it is assigned if no label is assigned twice, which is
what `Fresh` says of code that was made with a counter.
-/

namespace MultiPython.Logic

open List Option

variable {ι σ ω : Type*}

/-- What an instruction leads to. -/
inductive Effect (σ ω : Type*) where
  | next (state : σ)
  | jump (label : Nat) (state : σ)
  | halt (outcome : ω)

/-- A language: the label that an instruction assigns, and what it does to a state. An instruction
that cannot be run in a state has no effect. -/
structure LabelLang (ι σ ω : Type*) where
  assigned : ι → Option Nat
  run : ι → σ → Option (Effect σ ω)

/-- The place of a run. -/
inductive Place (σ ω : Type*) where
  | running (pc : Nat) (state : σ)
  | halted (outcome : ω)

/-- A piece of code is at a place of a whole one. -/
def PieceAt (code : List ι) (pc : Nat) (piece : List ι) : Prop := piece <+: code.drop pc

namespace LabelLang

variable (lang : LabelLang ι σ ω) (code : List ι)

/-- The labels that are assigned. -/
def labels : List Nat := code.filterMap lang.assigned

/-- The place of a label. -/
def offset (label : Nat) : Nat := code.findIdx fun instr => lang.assigned instr == some label

/-- The place after an effect of the instruction at `pc`. -/
def follow (pc : Nat) : Effect σ ω → Place σ ω
  | .next state => .running (pc + 1) state
  | .jump label state => .running (lang.offset code label) state
  | .halt outcome => .halted outcome

/-- One instruction. -/
def step : Place σ ω → Option (Place σ ω)
  | .running pc state =>
    code[pc]?.bind fun instr => (lang.run instr state).map (lang.follow code pc)
  | .halted _ => none

/-- A run leads from one place to another. -/
def Reaches : Place σ ω → Place σ ω → Prop :=
  Relation.ReflTransGen fun place next => lang.step code place = some next

end LabelLang

/-! ## Pieces of code -/

section PieceAt

variable {code piece before behind : List ι} {pc : Nat} {instr : ι}

theorem pieceAt_whole (code : List ι) : PieceAt code 0 code := prefix_rfl

theorem PieceAt.left (located : PieceAt code pc (before ++ behind)) : PieceAt code pc before :=
  (prefix_append before behind).trans located

theorem PieceAt.right (located : PieceAt code pc (before ++ behind)) :
    PieceAt code (pc + before.length) behind := by
  obtain ⟨rest, isCode⟩ := located
  refine ⟨rest, ?_⟩
  rw [← drop_drop, ← isCode, append_assoc, drop_left]

theorem PieceAt.head (located : PieceAt code pc (instr :: piece)) : code[pc]? = some instr := by
  obtain ⟨rest, isCode⟩ := located
  have first := congrArg List.head? isCode
  rw [List.head?_drop] at first
  exact first.symm

theorem PieceAt.tail (located : PieceAt code pc (instr :: piece)) :
    PieceAt code (pc + 1) piece := by
  have whole : PieceAt code pc ([instr] ++ piece) := located
  exact whole.right

end PieceAt

/-! ## Runs -/

namespace LabelLang

variable {lang : LabelLang ι σ ω} {code : List ι} {place middle last : Place σ ω} {pc : Nat}
  {instr : ι} {state next : σ} {label : Nat} {outcome : ω}

theorem Reaches.refl (place : Place σ ω) : lang.Reaches code place place :=
  Relation.ReflTransGen.refl

theorem Reaches.trans (first : lang.Reaches code place middle)
    (second : lang.Reaches code middle last) : lang.Reaches code place last :=
  Relation.ReflTransGen.trans first second

theorem step_eq {effect : Effect σ ω} (here : code[pc]? = some instr)
    (runs : lang.run instr state = some effect) :
    lang.step code (.running pc state) = some (lang.follow code pc effect) := by
  rw [step, here, bind_some, runs, map_some]

theorem reaches_next (here : code[pc]? = some instr)
    (runs : lang.run instr state = some (.next next)) :
    lang.Reaches code (.running pc state) (.running (pc + 1) next) :=
  .single (step_eq here runs)

theorem reaches_jump (here : code[pc]? = some instr)
    (runs : lang.run instr state = some (.jump label next)) :
    lang.Reaches code (.running pc state) (.running (lang.offset code label) next) :=
  .single (step_eq here runs)

theorem reaches_halt (here : code[pc]? = some instr)
    (runs : lang.run instr state = some (.halt outcome)) :
    lang.Reaches code (.running pc state) (.halted outcome) :=
  .single (step_eq here runs)

/-- What holds at the start and is kept by every instruction of the code holds of every place that
is reached. -/
theorem Reaches.invariant (holds : σ → Prop) (ends : ω → Prop)
    (kept : ∀ instr ∈ code, ∀ state effect, holds state → lang.run instr state = some effect →
      match effect with
      | .next state => holds state
      | .jump _ state => holds state
      | .halt outcome => ends outcome)
    (initial : holds state) (reaches : lang.Reaches code (.running pc state) last) :
    match last with
    | .running _ state => holds state
    | .halted outcome => ends outcome := by
  induction reaches with
  | refl => exact initial
  | @tail place next _ isStep ih =>
    cases place with
    | halted outcome => cases isStep
    | running pc state =>
      obtain ⟨instr, here, runs⟩ := bind_eq_some_iff.mp isStep
      obtain ⟨effect, isEffect, rfl⟩ := map_eq_some_iff.mp runs
      have after := kept instr (mem_of_getElem? here) state effect ih
        isEffect
      cases effect with
      | next state => exact after
      | jump label state => exact after
      | halt outcome => exact after

/-- Of two places that a run comes to, one comes before the other. -/
theorem Reaches.total (first : lang.Reaches code place middle)
    (second : lang.Reaches code place last) :
    lang.Reaches code middle last ∨ lang.Reaches code last middle := by
  refine Relation.ReflTransGen.total_of_right_unique ?_ first second
  intro before left right isLeft isRight
  exact some.inj (isLeft.symm.trans isRight)

section

variable {α : Type*} {log : Place σ ω → List α}
  (grows : ∀ before after, lang.step code before = some after → log before <+: log after)

include α log grows

/-- A log that every instruction only adds to is a prefix of the one of a later place. -/
theorem Reaches.log_grows (reaches : lang.Reaches code place last) : log place <+: log last := by
  induction reaches with
  | refl => exact prefix_rfl
  | tail _ isStep ih => exact ih.trans (grows _ _ isStep)

/-- The logs of two places that a run comes to go together. -/
theorem Reaches.logs_agree (first : lang.Reaches code place middle)
    (second : lang.Reaches code place last) :
    log middle <+: log last ∨ log last <+: log middle := by
  rcases first.total second with later | earlier
  · exact Or.inl (later.log_grows grows)
  · exact Or.inr (earlier.log_grows grows)

end

/-! ## Labels -/

theorem labels_append (before behind : List ι) :
    lang.labels (before ++ behind) = lang.labels before ++ lang.labels behind :=
  filterMap_append

/-- A label has the place where it is assigned. -/
theorem offset_eq (distinct : (lang.labels code).Nodup) (here : code[pc]? = some instr)
    (assigns : lang.assigned instr = some label) : lang.offset code label = pc := by
  induction code generalizing pc with
  | nil => cases here
  | cons first code ih =>
    rw [offset, findIdx_cons]
    cases pc with
    | zero =>
      rw [List.getElem?_cons_zero, some.injEq] at here
      rw [here, assigns]
      simp
    | succ pc =>
      rw [List.getElem?_cons_succ] at here
      have later : label ∈ lang.labels code :=
        mem_filterMap.mpr ⟨instr, mem_of_getElem? here, assigns⟩
      rw [labels, filterMap_cons] at distinct
      cases isFirst : lang.assigned first with
      | none =>
        rw [isFirst] at distinct
        have isFalse : (none == some label) = false := rfl
        rw [isFalse, cond_false]
        exact congrArg (· + 1) (ih distinct here)
      | some other =>
        rw [isFirst] at distinct
        obtain ⟨fresh, rest⟩ := nodup_cons.mp distinct
        have differs : ¬ other = label := by
          rintro rfl
          exact fresh later
        have isFalse : (some other == some label) = false := by simpa using differs
        rw [isFalse, cond_false]
        exact congrArg (· + 1) (ih rest here)

/-- The label of an instruction of a piece has the place of the instruction. -/
theorem offset_pieceAt {piece : List ι} (distinct : (lang.labels code).Nodup)
    (located : PieceAt code pc (instr :: piece)) (assigns : lang.assigned instr = some label) :
    lang.offset code label = pc :=
  offset_eq distinct located.head assigns

/-- The labels of a piece of code are distinct, and were given out by a counter that went from one
number to another. -/
def Fresh (lang : LabelLang ι σ ω) (code : List ι) (low high : Nat) : Prop :=
  low ≤ high ∧ (lang.labels code).Nodup ∧ ∀ label ∈ lang.labels code, low ≤ label ∧ label < high

section Fresh

variable {before behind : List ι} {low middle high : Nat}

theorem Fresh.none (isNone : lang.labels code = []) (isLow : low ≤ high) :
    lang.Fresh code low high := by
  refine ⟨isLow, ?_, ?_⟩
  · rw [isNone]
    exact nodup_nil
  · intro label isIn
    rw [isNone] at isIn
    cases isIn

theorem Fresh.mono (fresh : lang.Fresh code middle high) (isLow : low ≤ middle) :
    lang.Fresh code low high := by
  obtain ⟨isHigh, distinct, between⟩ := fresh
  refine ⟨Nat.le_trans isLow isHigh, distinct, ?_⟩
  intro label isIn
  have range := between label isIn
  omega

theorem Fresh.append (first : lang.Fresh before low middle)
    (second : lang.Fresh behind middle high) : lang.Fresh (before ++ behind) low high := by
  obtain ⟨isLow, distinct, between⟩ := first
  obtain ⟨isHigh, distinctBehind, betweenBehind⟩ := second
  refine ⟨Nat.le_trans isLow isHigh, ?_, ?_⟩
  · rw [labels_append]
    refine List.Nodup.append distinct distinctBehind ?_
    intro label isIn isBehind
    have below := (between label isIn).2
    have above := (betweenBehind label isBehind).1
    omega
  · intro label isIn
    rw [labels_append] at isIn
    rcases mem_append.mp isIn with isIn | isIn
    · have range := between label isIn
      omega
    · have range := betweenBehind label isIn
      omega

/-- A label that was given out first can be assigned anywhere. -/
theorem Fresh.assign (fresh : lang.Fresh (before ++ behind) low.succ high)
    (assigns : lang.assigned instr = some low) :
    lang.Fresh (before ++ instr :: behind) low high := by
  obtain ⟨isLow, distinct, between⟩ := fresh
  have isLabels : lang.labels (before ++ instr :: behind) =
      lang.labels before ++ low :: lang.labels behind := by
    rw [labels_append]
    exact congrArg (lang.labels before ++ ·) (filterMap_cons_some assigns)
  rw [labels_append] at distinct between
  have isNew : low ∉ lang.labels before ++ lang.labels behind := by
    intro isIn
    have range := between low isIn
    omega
  refine ⟨by omega, ?_, ?_⟩
  · rw [isLabels]
    exact nodup_middle.mpr (nodup_cons.mpr ⟨isNew, distinct⟩)
  · intro label isIn
    rw [isLabels] at isIn
    rcases mem_cons.mp (perm_middle.mem_iff.mp isIn) with rfl | isIn
    · omega
    · have range := between label isIn
      omega

end Fresh

end LabelLang

end MultiPython.Logic
