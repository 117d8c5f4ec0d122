import WasmX64.Proofs.Text.Lines
import WasmX64.Proofs.Wasm.Build

/-!
# Reading a body

A body is read line by line over a stack of open constructs.  What has been read so far lists as
the lines that were read, and lines that list a tree are read as this tree.  So a text is read
exactly if its lines are properly nested items, and as the tree that lists as these items.
-/

/-!
## Bodies as listings

A body is written as a list of items: instructions, and the markers that begin an else arm or end
a construct.  `Instr.itemsAll` lists a tree in order, `Body.Nested` says which lists of items are
properly nested, and reading a text yields the one tree that lists as its lines do.
-/

namespace WasmX64

/-- What a line of a body stands for. -/
inductive Body.Item where
  /-- An instruction without the instructions it owns. -/
  | instr (instr : Instr)
  | otherwise
  | finish

/-- An instruction without the instructions it owns. -/
def Instr.head (instr : Instr) : Instr :=
  { instr with body := [], elseBody := [], hasElse := false }

mutual

/-- The items of a tree in order: the instruction, its body, its else arm behind a marker, and the
marker of its end. -/
def Instr.items : Instr → List Body.Item
  | ⟨op, results, body, elseBody, hasElse, index, targets, default, offset, align, value⟩ =>
    .instr ⟨op, results, [], [], false, index, targets, default, offset, align, value⟩ ::
      if op.isStructured then
        Instr.itemsAll body ++ (if hasElse then .otherwise :: Instr.itemsAll elseBody else []) ++
          [.finish]
      else []

/-- The items of a body in order. -/
def Instr.itemsAll : List Instr → List Body.Item
  | [] => []
  | instr :: rest => instr.items ++ Instr.itemsAll rest

end

mutual

/-- Only structured instructions own others, and only an `if` has an else arm. -/
def Instr.Formed : Instr → Prop
  | ⟨op, _, body, elseBody, hasElse, _, _, _, _, _, _⟩ =>
    (op.isStructured = false → body = []) ∧ (hasElse = true → op = .branchIf) ∧
      (hasElse = false → elseBody = []) ∧ Instr.AllFormed body ∧ Instr.AllFormed elseBody

/-- A body of such instructions. -/
def Instr.AllFormed : List Instr → Prop
  | [] => True
  | instr :: rest => instr.Formed ∧ Instr.AllFormed rest

end

/-- Items in which every construct is ended, and every else belongs to an `if` of its own. -/
inductive Body.Nested : List Body.Item → Prop where
  | nil : Body.Nested []
  | plain {instr : Instr} {rest : List Body.Item} (plain : instr.op.isStructured = false)
      (behind : Body.Nested rest) : Body.Nested (.instr instr :: rest)
  | construct {instr : Instr} {body rest : List Body.Item} (structured : instr.op.isStructured = true)
      (inside : Body.Nested body) (behind : Body.Nested rest) :
      Body.Nested (.instr instr :: body ++ .finish :: rest)
  | armed {instr : Instr} {body arm rest : List Body.Item} (isIf : instr.op = .branchIf)
      (inside : Body.Nested body) (other : Body.Nested arm) (behind : Body.Nested rest) :
      Body.Nested (.instr instr :: body ++ .otherwise :: arm ++ .finish :: rest)

namespace Instr

variable {instr : Instr} {body rest : List Instr}

theorem items_eq (instr : Instr) :
    instr.items = .instr instr.head ::
      if instr.op.isStructured then
        itemsAll instr.body ++ (if instr.hasElse then .otherwise :: itemsAll instr.elseBody else []) ++
          [.finish]
      else [] := by
  cases instr
  rw [items]
  rfl

theorem items_plain (plain : instr.op.isStructured = false) : instr.items = [.instr instr.head] := by
  rw [items_eq, plain]
  rfl

theorem itemsAll_append (body rest : List Instr) :
    itemsAll (body ++ rest) = itemsAll body ++ itemsAll rest := by
  induction body with
  | nil => rfl
  | cons instr body ih => rw [List.cons_append, itemsAll, itemsAll, ih, List.append_assoc]

theorem formed_iff : instr.Formed ↔ (instr.op.isStructured = false → instr.body = []) ∧
    (instr.hasElse = true → instr.op = .branchIf) ∧ (instr.hasElse = false → instr.elseBody = []) ∧
      AllFormed instr.body ∧ AllFormed instr.elseBody := by
  cases instr
  rw [Formed]

theorem allFormed_cons : AllFormed (instr :: rest) ↔ instr.Formed ∧ AllFormed rest := by
  rw [AllFormed]

theorem allFormed_append :
    AllFormed (body ++ rest) ↔ AllFormed body ∧ AllFormed rest := by
  induction body with
  | nil => simp [AllFormed]
  | cons instr body ih => rw [List.cons_append, allFormed_cons, allFormed_cons, ih, and_assoc]

theorem allFormed_reverse : AllFormed body.reverse ↔ AllFormed body := by
  induction body with
  | nil => rfl
  | cons instr body ih =>
    rw [List.reverse_cons, allFormed_append, ih, allFormed_cons, allFormed_cons, and_comm]
    simp [AllFormed]

mutual

/-- A tree has as many items as instructions and markers. -/
theorem length_items (instr : Instr) : instr.items.length = instr.count := by
  obtain ⟨op, results, body, elseBody, hasElse, index, targets, default, offset, align, value⟩ :=
    instr
  have inside := length_itemsAll body
  have other := length_itemsAll elseBody
  rw [items, count]
  cases op.isStructured <;> cases hasElse <;> simp [inside, other] <;> omega

theorem length_itemsAll (body : List Instr) : (itemsAll body).length = countAll body := by
  cases body with
  | nil => rfl
  | cons instr rest =>
    rw [itemsAll, countAll, List.length_append, length_items instr, length_itemsAll rest]

end

end Instr

theorem Body.Nested.append {left right : List Body.Item} (first : Body.Nested left) (second : Body.Nested right) :
    Body.Nested (left ++ right) := by
  induction first with
  | nil => exact second
  | plain plain _ ih => exact .plain plain ih
  | construct structured inside _ _ ih =>
    rw [List.append_assoc, List.cons_append]
    exact .construct structured inside ih
  | armed isIf inside other _ _ _ ih =>
    rw [List.append_assoc, List.cons_append]
    exact .armed isIf inside other ih

mutual

theorem Instr.Formed.nested {instr : Instr} (formed : instr.Formed) : Body.Nested instr.items := by
  obtain ⟨op, results, body, elseBody, hasElse, index, targets, default, offset, align, value⟩ :=
    instr
  rw [Instr.Formed] at formed
  obtain ⟨_, arms, _, inside, other⟩ := formed
  have insideNested := Instr.AllFormed.nested inside
  have otherNested := Instr.AllFormed.nested other
  rw [Instr.items]
  cases structured : op.isStructured with
  | false => exact .plain structured .nil
  | true =>
    rw [if_pos rfl]
    cases hasElse with
    | true => exact .armed (arms rfl) insideNested otherNested .nil
    | false =>
      rw [if_neg Bool.false_ne_true, List.append_nil]
      exact .construct structured insideNested .nil

theorem Instr.AllFormed.nested {body : List Instr} (formed : Instr.AllFormed body) :
    Body.Nested (Instr.itemsAll body) := by
  cases body with
  | nil => exact .nil
  | cons instr rest =>
    rw [Instr.allFormed_cons] at formed
    rw [Instr.itemsAll]
    exact (Instr.Formed.nested formed.1).append (Instr.AllFormed.nested formed.2)

end

end WasmX64

namespace WasmX64.Body

/-- The words of a line in front of a comment. -/
def lineWords (line : List Char) : List String :=
  (Text.words (dropComment line)).map String.ofList

/-- The item that the words of a line stand for. -/
def item? : List String → Option Item
  | [] => none
  | name :: operands =>
    if name = "end" then some .finish
    else if name = "else" then some .otherwise
    else (Opcode.ofName? name).bind fun op => (readInstr op operands).toOption.map .instr

/-- The items of the lines that are not blank, if each of them stands for one. -/
def itemsOf? (lines : List (List Char)) : Option (List Item) :=
  ((lines.map lineWords).filter (· ≠ [])).mapM item?

theorem itemsOf?_blank {line : List Char} {rest : List (List Char)} (blank : lineWords line = []) :
    itemsOf? (line :: rest) = itemsOf? rest := by
  unfold itemsOf?
  rw [List.map_cons, List.filter_cons, if_neg (by simp [blank])]

theorem itemsOf?_cons {line : List Char} {rest : List (List Char)} (filled : lineWords line ≠ []) :
    itemsOf? (line :: rest) =
      (item? (lineWords line)).bind fun item => (itemsOf? rest).map (item :: ·) := by
  unfold itemsOf?
  rw [List.map_cons, List.filter_cons, if_pos (by simp [filled]), List.mapM_cons]
  cases item? (lineWords line) with
  | none => rfl
  | some item => cases (List.mapM item? _) <;> rfl

theorem itemsOf?_append_blank (lines : List (List Char)) :
    itemsOf? (lines ++ [[]]) = itemsOf? lines := by
  unfold itemsOf?
  rw [List.map_append, List.filter_append]
  simp [lineWords, dropComment, Text.words, Text.wordsFrom]

/-! ## A carriage return at the end -/

theorem dropComment_append_return (line : List Char) :
    dropComment (line ++ ['\r']) = dropComment line ∨
      dropComment (line ++ ['\r']) = dropComment line ++ ['\r'] := by
  fun_induction dropComment line with
  | case1 rest => exact .inl rfl
  | case2 char rest notComment ih =>
    have keeps : dropComment (char :: (rest ++ ['\r'])) = char :: dropComment (rest ++ ['\r']) := by
      rw [dropComment]
      intro tail isMark found
      cases rest with
      | nil => simp at found
      | cons next rest =>
        obtain ⟨rfl, rfl⟩ := List.cons.inj found
        exact notComment rest isMark rfl
    rw [List.cons_append, keeps]
    rcases ih with same | longer
    · exact .inl (congrArg _ same)
    · exact .inr (congrArg _ longer)
  | case3 => exact .inr rfl

theorem lineWords_dropReturn (line : List Char) :
    lineWords (Text.dropReturn line) = lineWords line := by
  unfold Text.dropReturn
  split
  · rename_i last
    obtain ⟨front, rfl⟩ := List.getLast?_eq_some_iff.mp last
    have blank : Text.isBlank '\r' = true := rfl
    rw [List.dropLast_concat]
    unfold lineWords
    rcases dropComment_append_return front with same | longer
    · rw [same]
    · rw [longer, Text.words, Text.words, Text.wordsFrom_append_blank blank]
  · rfl

theorem itemsOf?_map_dropReturn (lines : List (List Char)) :
    itemsOf? (lines.map Text.dropReturn) = itemsOf? lines := by
  unfold itemsOf?
  rw [List.map_map]
  congr 3
  funext line
  exact lineWords_dropReturn line

/-- Whether a line ends with a carriage return, or an empty line ends the text, is all the same. -/
theorem itemsOf?_splitLines (chars : List Char) :
    itemsOf? ((Text.splitLinesFrom [] chars).map Text.dropReturn) =
      itemsOf? (chars.splitOn '\n') := by
  rw [itemsOf?_map_dropReturn]
  rcases Text.splitLinesFrom_pieces chars with same | same
  · rw [same]
  · rw [← same, itemsOf?_append_blank]

/-! ## One item more -/

def Reading.take (reading : Reading) (number : Nat) : Item → Option Reading
  | .finish =>
    match reading.opened with
    | [] => none
    | top :: rest => some ({ reading with opened := rest }.append top.close)
  | .otherwise =>
    match reading.opened with
    | [] => none
    | top :: rest =>
      if top.instr.op ≠ .branchIf ∨ top.inElse then none
      else
        let top := { top with inElse := true, instr := { top.instr with hasElse := true } }
        some { reading with opened := top :: rest }
  | .instr instr =>
    some (if instr.op.isStructured then
      { reading with opened := ⟨instr, false, number⟩ :: reading.opened }
    else reading.append instr)

theorem readLine_blank {reading : Reading} {number : Nat} {line : List Char}
    (blank : lineWords line = []) : readLine reading number line = .ok reading := by
  unfold lineWords at blank
  unfold readLine
  rw [blank]

theorem readLine_toOption (reading : Reading) (number : Nat) {line : List Char}
    (filled : lineWords line ≠ []) :
    (readLine reading number line).toOption =
      (item? (lineWords line)).bind (reading.take number) := by
  unfold lineWords at filled ⊢
  unfold readLine
  cases words : (Text.words (dropComment line)).map String.ofList with
  | nil => exact absurd words filled
  | cons name operands =>
    dsimp only
    rw [item?]
    by_cases isEnd : name = "end"
    · rw [if_pos isEnd, if_pos isEnd]
      unfold Reading.take
      cases reading.opened <;> rfl
    · rw [if_neg isEnd, if_neg isEnd]
      by_cases isElse : name = "else"
      · rw [if_pos isElse, if_pos isElse]
        unfold Reading.take
        cases reading.opened with
        | nil => rfl
        | cons top rest =>
          dsimp only [Option.bind_some]
          split <;> rfl
      · rw [if_neg isElse, if_neg isElse]
        cases Opcode.ofName? name with
        | none => rfl
        | some op =>
          dsimp only [Option.bind_some]
          cases reads : readInstr op operands with
          | error cause => rfl
          | ok instr =>
            obtain ⟨rfl, _⟩ := readInstr_bare reads
            change _ = some (ite _ _ _)
            cases instr.op.isStructured <;> rfl

/-- An item owns no instructions. -/
def Item.Bare : Item → Prop
  | .instr node => Body.Bare node.op node
  | _ => True

/-- An item of a line owns no instructions. -/
theorem bare_of_item? {words : List String} {item : Item} (stands : item? words = some item) :
    item.Bare := by
  cases words with
  | nil => cases stands
  | cons name operands =>
    rw [item?] at stands
    split at stands
    · cases stands
      trivial
    · split at stands
      · cases stands
        trivial
      · obtain ⟨op, _, stands⟩ := Option.bind_eq_some_iff.mp stands
        obtain ⟨instr, ok, rfl⟩ := Option.map_eq_some_iff.mp stands
        cases reads : readInstr op operands with
        | error cause =>
          rw [reads] at ok
          cases ok
        | ok value =>
          rw [reads] at ok
          cases ok
          exact ⟨rfl, (readInstr_bare reads).2⟩

theorem Bare.head {op : Opcode} {instr : Instr} (bare : Bare op instr) : instr.head = instr := by
  obtain ⟨op, results, body, elseBody, hasElse, _⟩ := instr
  obtain ⟨_, noBody, noElseBody, noElse⟩ := bare
  cases noBody
  cases noElseBody
  cases noElse
  rfl

/-! ## What has been read lists as its lines -/

def Open.items (construct : Open) : List Item :=
  .instr construct.instr.head :: (Instr.itemsAll construct.instr.body.reverse ++
    if construct.inElse then .otherwise :: Instr.itemsAll construct.instr.elseBody.reverse else [])

/-- The items that a reading has taken in. -/
def Reading.items (reading : Reading) : List Item :=
  Instr.itemsAll reading.finished.reverse ++ reading.opened.reverse.flatMap Open.items

/-- An open construct that takes instructions into its else arm only behind an else of an `if`. -/
structure Open.Formed (construct : Open) : Prop where
  structured : construct.instr.op.isStructured = true
  arms : construct.instr.hasElse = construct.inElse
  isIf : construct.inElse = true → construct.instr.op = .branchIf
  body : Instr.AllFormed construct.instr.body
  elseBody : Instr.AllFormed construct.instr.elseBody
  armless : construct.inElse = false → construct.instr.elseBody = []

/-- A reading of well-formed instructions. -/
structure Reading.Formed (reading : Reading) : Prop where
  finished : Instr.AllFormed reading.finished
  opened : ∀ construct ∈ reading.opened, construct.Formed

section Reading

variable {reading after : Reading} {construct : Open} {instr : Instr} {number : Nat}

theorem Open.append_body (before : construct.inElse = false) (instr : Instr) :
    construct.append instr = { construct with
      instr := { construct.instr with body := instr :: construct.instr.body } } := by
  rw [Open.append, before]
  rfl

theorem Open.append_elseBody (behind : construct.inElse = true) (instr : Instr) :
    construct.append instr = { construct with
      instr := { construct.instr with elseBody := instr :: construct.instr.elseBody } } := by
  rw [Open.append, behind]
  rfl

theorem Open.Formed.append (formed : construct.Formed) (formedInstr : instr.Formed) :
    (construct.append instr).Formed := by
  cases arm : construct.inElse with
  | true =>
    rw [Open.append_elseBody arm]
    exact ⟨formed.structured, formed.arms, formed.isIf, formed.body,
      Instr.allFormed_cons.mpr ⟨formedInstr, formed.elseBody⟩,
      fun armless => absurd (arm.symm.trans armless) (by decide)⟩
  | false =>
    rw [Open.append_body arm]
    exact ⟨formed.structured, formed.arms, formed.isIf,
      Instr.allFormed_cons.mpr ⟨formedInstr, formed.body⟩, formed.elseBody, formed.armless⟩

theorem Open.Formed.close (formed : construct.Formed) : construct.close.Formed := by
  refine Instr.formed_iff.mpr ⟨fun plain => ?_, fun arms => ?_, fun armless => ?_,
    Instr.allFormed_reverse.mpr formed.body, Instr.allFormed_reverse.mpr formed.elseBody⟩
  · exact absurd (formed.structured.symm.trans plain) (by decide)
  · exact formed.isIf (formed.arms.symm.trans arms)
  · have nothing := formed.armless (formed.arms.symm.trans armless)
    simp [Open.close, nothing]

theorem Reading.Formed.append (formed : reading.Formed) (formedInstr : instr.Formed) :
    (reading.append instr).Formed := by
  unfold Reading.append
  cases opened : reading.opened with
  | nil => exact ⟨Instr.allFormed_cons.mpr ⟨formedInstr, formed.finished⟩, by simp⟩
  | cons top rest =>
    obtain ⟨first, others⟩ := List.forall_mem_cons.mp (opened ▸ formed.opened)
    exact ⟨formed.finished, List.forall_mem_cons.mpr ⟨first.append formedInstr, others⟩⟩

theorem Open.items_append (construct : Open) (instr : Instr) :
    (construct.append instr).items = construct.items ++ instr.items := by
  unfold Open.append Open.items
  cases construct.inElse <;>
    simp [Instr.head, Instr.itemsAll_append, Instr.itemsAll]

theorem Reading.items_append (reading : Reading) (instr : Instr) :
    (reading.append instr).items = reading.items ++ instr.items := by
  unfold Reading.append Reading.items
  cases opened : reading.opened with
  | nil => simp [Instr.itemsAll_append, Instr.itemsAll]
  | cons top rest => simp [Open.items_append]

theorem Open.Formed.items_close (formed : construct.Formed) :
    construct.close.items = construct.items ++ [.finish] := by
  have structured : construct.close.op.isStructured = true := formed.structured
  have arms : construct.close.hasElse = construct.inElse := formed.arms
  rw [Instr.items_eq, structured, if_pos rfl, arms]
  rfl

theorem Reading.Formed.take (formed : reading.Formed) {item : Item}
    (bare : item.Bare) (takes : reading.take number item = some after) :
    after.Formed ∧ after.items = reading.items ++ [item] := by
  cases item with
  | finish =>
    rw [Reading.take] at takes
    cases opened : reading.opened with
    | nil =>
      rw [opened] at takes
      cases takes
    | cons top rest =>
      rw [opened] at takes
      cases takes
      obtain ⟨first, others⟩ := List.forall_mem_cons.mp (opened ▸ formed.opened)
      have outer : ({ reading with opened := rest } : Reading).Formed :=
        ⟨formed.finished, others⟩
      refine ⟨outer.append first.close, ?_⟩
      rw [Reading.items_append, first.items_close]
      simp [Reading.items, opened]
  | otherwise =>
    rw [Reading.take] at takes
    cases opened : reading.opened with
    | nil =>
      rw [opened] at takes
      cases takes
    | cons top rest =>
      rw [opened] at takes
      dsimp only at takes
      split at takes
      · cases takes
      · rename_i known
        cases takes
        obtain ⟨first, others⟩ := List.forall_mem_cons.mp (opened ▸ formed.opened)
        have isIf : top.instr.op = .branchIf := by simpa using fun other => known (.inl other)
        have before : top.inElse = false := by simpa using fun arm => known (.inr arm)
        refine ⟨⟨formed.finished, List.forall_mem_cons.mpr ⟨?_, others⟩⟩, ?_⟩
        · exact ⟨first.structured, rfl, fun _ => isIf, first.body, first.elseBody,
            fun never => absurd never.symm Bool.false_ne_true⟩
        · have nothing := first.armless before
          simp [Reading.items, Open.items, opened, before, nothing, Instr.head,
            Instr.itemsAll]
  | instr instr =>
    obtain ⟨_, noBody, noElseBody, noElse⟩ := id bare
    rw [Reading.take, Option.some.injEq] at takes
    subst takes
    split
    · rename_i structured
      refine ⟨⟨formed.finished, List.forall_mem_cons.mpr ⟨?_, formed.opened⟩⟩, ?_⟩
      · constructor
        case structured => exact structured
        case arms => exact noElse
        case isIf => exact fun never => absurd never Bool.false_ne_true
        case body =>
          rw [noBody]
          trivial
        case elseBody =>
          rw [noElseBody]
          trivial
        case armless => exact fun _ => noElseBody
      · simp [Reading.items, Open.items, noBody, Bare.head bare, Instr.itemsAll]
    · rename_i plain
      have unstructured : instr.op.isStructured = false := Bool.eq_false_iff.mpr plain
      have formedInstr : instr.Formed := by
        refine Instr.formed_iff.mpr ⟨fun _ => noBody, fun has => ?_, fun _ => noElseBody, ?_, ?_⟩
        · exact absurd (noElse.symm.trans has) Bool.false_ne_true
        · rw [noBody]
          trivial
        · rw [noElseBody]
          trivial
      refine ⟨formed.append formedInstr, ?_⟩
      rw [Reading.items_append, Instr.items_plain unstructured, Bare.head bare]

theorem readLines_items {lines : List (List Char)} (formed : reading.Formed)
    (reads : readLines reading number lines = .ok after) :
    after.Formed ∧ ∃ items, itemsOf? lines = some items ∧ after.items = reading.items ++ items := by
  induction lines generalizing reading number with
  | nil =>
    cases reads
    exact ⟨formed, [], rfl, (List.append_nil _).symm⟩
  | cons line rest ih =>
    rw [readLines] at reads
    cases first : readLine reading number line with
    | error cause =>
      rw [first] at reads
      cases reads
    | ok middle =>
      rw [first] at reads
      by_cases blank : lineWords line = []
      · rw [readLine_blank blank] at first
        cases first
        rw [itemsOf?_blank blank]
        exact ih formed reads
      · have taken := readLine_toOption reading number blank
        rw [first] at taken
        obtain ⟨item, stands, takes⟩ := Option.bind_eq_some_iff.mp taken.symm
        obtain ⟨formedMiddle, listed⟩ := formed.take (bare_of_item? stands) takes
        obtain ⟨formedAfter, items, others, listedAfter⟩ := ih formedMiddle reads
        refine ⟨formedAfter, item :: items, ?_, ?_⟩
        · rw [itemsOf?_cons blank, stands, others]
          rfl
        · rw [listedAfter, listed, List.append_assoc]
          rfl

end Reading

/-! ## Lines that list a tree are read as the tree -/

theorem readLines_item {lines : List (List Char)} {item : Item} {rest : List Item}
    (reading : Reading) (number : Nat) (listed : itemsOf? lines = some (item :: rest)) :
    ∃ place others, itemsOf? others = some rest ∧ ∀ after,
      reading.take place item = some after →
      readLines reading number lines = readLines after (place + 1) others := by
  induction lines generalizing number with
  | nil => cases listed
  | cons line lines ih =>
    by_cases blank : lineWords line = []
    · rw [itemsOf?_blank blank] at listed
      obtain ⟨place, others, behind, reads⟩ := ih (number + 1) listed
      refine ⟨place, others, behind, fun after takes => ?_⟩
      rw [readLines, readLine_blank blank]
      exact reads after takes
    · rw [itemsOf?_cons blank] at listed
      obtain ⟨found, stands, listed⟩ := Option.bind_eq_some_iff.mp listed
      obtain ⟨items, behind, same⟩ := Option.map_eq_some_iff.mp listed
      obtain ⟨rfl, rfl⟩ := List.cons.inj same
      refine ⟨number, lines, behind, fun after takes => ?_⟩
      have taken := readLine_toOption reading number blank
      rw [stands, Option.bind_some, takes] at taken
      rw [readLines]
      cases first : readLine reading number line with
      | error cause =>
        rw [first] at taken
        cases taken
      | ok middle =>
        rw [first] at taken
        cases taken
        rfl

theorem readLines_blank {reading : Reading} {number : Nat} {lines : List (List Char)}
    (nothing : itemsOf? lines = some []) : readLines reading number lines = .ok reading := by
  induction lines generalizing number with
  | nil => rfl
  | cons line rest ih =>
    by_cases blank : lineWords line = []
    · rw [itemsOf?_blank blank] at nothing
      rw [readLines, readLine_blank blank]
      exact ih nothing
    · rw [itemsOf?_cons blank] at nothing
      obtain ⟨item, _, nothing⟩ := Option.bind_eq_some_iff.mp nothing
      obtain ⟨others, _, never⟩ := Option.map_eq_some_iff.mp nothing
      cases never

/-- Instructions behind everything read so far. -/
def Reading.appendAll (reading : Reading) (body : List Instr) : Reading :=
  body.foldl Reading.append reading

/-- Instructions behind what an open construct holds already. -/
def Open.appendAll (construct : Open) (body : List Instr) : Open :=
  body.foldl Open.append construct

theorem Reading.appendAll_opened {reading : Reading} {top : Open} {rest : List Open}
    (opened : reading.opened = top :: rest) (body : List Instr) :
    reading.appendAll body = { reading with opened := top.appendAll body :: rest } := by
  induction body generalizing reading top with
  | nil =>
    obtain ⟨finished, constructs⟩ := reading
    exact congrArg _ opened
  | cons instr body ih =>
    have first : (reading.append instr).opened = top.append instr :: rest := by
      rw [Reading.append, opened]
    have finished : (reading.append instr).finished = reading.finished := by
      rw [Reading.append, opened]
    change (reading.append instr).appendAll body = _
    rw [ih first, finished]
    rfl

theorem Reading.appendAll_finished {reading : Reading} (opened : reading.opened = [])
    (body : List Instr) :
    reading.appendAll body = { reading with finished := body.reverse ++ reading.finished } := by
  induction body generalizing reading with
  | nil => rfl
  | cons instr body ih =>
    have first : (reading.append instr).opened = [] := by
      rw [Reading.append, opened]
    have finished : (reading.append instr).finished = instr :: reading.finished := by
      rw [Reading.append, opened]
    change (reading.append instr).appendAll body = _
    rw [ih first, finished]
    simp [first, opened]

theorem Open.appendAll_body {construct : Open} (before : construct.inElse = false)
    (body : List Instr) :
    construct.appendAll body = { construct with
      instr := { construct.instr with body := body.reverse ++ construct.instr.body } } := by
  induction body generalizing construct with
  | nil =>
    obtain ⟨⟨⟩, _, _⟩ := construct
    rfl
  | cons instr body ih =>
    have first : (construct.append instr).inElse = false := by
      rw [Open.append_body before]
      exact before
    change (construct.append instr).appendAll body = _
    rw [ih first, Open.append_body before]
    simp

theorem Open.appendAll_elseBody {construct : Open} (behind : construct.inElse = true)
    (body : List Instr) :
    construct.appendAll body = { construct with
      instr := { construct.instr with elseBody := body.reverse ++ construct.instr.elseBody } } := by
  induction body generalizing construct with
  | nil =>
    obtain ⟨⟨⟩, _, _⟩ := construct
    rfl
  | cons instr body ih =>
    have first : (construct.append instr).inElse = true := by
      rw [Open.append_elseBody behind]
      exact behind
    change (construct.append instr).appendAll body = _
    rw [ih first, Open.append_elseBody behind]
    simp

def ReadsOn (reading : Reading) (number : Nat) (lines : List (List Char)) (rest : List Item)
    (after : Reading) : Prop :=
  ∃ place others, itemsOf? others = some rest ∧
    readLines reading number lines = readLines after place others

theorem ReadsOn.item (reading : Reading) {after : Reading} (number : Nat)
    {lines : List (List Char)} {item : Item} {rest : List Item} (listed : itemsOf? lines = some (item :: rest))
    (takes : ∀ place, reading.take place item = some after) :
    ReadsOn reading number lines rest after := by
  obtain ⟨place, others, behind, reads⟩ := readLines_item reading number listed
  exact ⟨place + 1, others, behind, reads after (takes place)⟩

mutual

theorem reads_items {instr : Instr} (formed : instr.Formed) (reading : Reading) (number : Nat)
    {lines : List (List Char)} {rest : List Item}
    (listed : itemsOf? lines = some (instr.items ++ rest)) :
    ReadsOn reading number lines rest (reading.append instr) := by
  obtain ⟨op, results, body, elseBody, hasElse, index, targets, default, offset, align, value⟩ :=
    instr
  rw [Instr.Formed] at formed
  obtain ⟨bodiless, arms, armless, inside, other⟩ := formed
  rw [Instr.items, List.cons_append] at listed
  obtain ⟨place, lines, behind, first⟩ := readLines_item reading number listed
  cases structured : op.isStructured with
  | false =>
    rw [structured] at behind
    have noElse : hasElse = false := by
      cases hasElse with
      | false => rfl
      | true =>
        rw [arms rfl] at structured
        cases structured
    obtain rfl := bodiless structured
    obtain rfl := armless noElse
    obtain rfl := noElse
    refine ⟨place + 1, lines, behind, first _ ?_⟩
    rw [Reading.take, structured]
    rfl
  | true =>
    rw [structured, if_pos rfl, List.append_assoc, List.append_assoc] at behind
    let head : Instr :=
      ⟨op, results, [], [], false, index, targets, default, offset, align, value⟩
    let opened : Reading := { reading with opened := ⟨head, false, place⟩ :: reading.opened }
    have opens : reading.take place (.instr head) = some opened := by
      rw [Reading.take, if_pos structured]
    obtain ⟨next, later, rest', second⟩ :=
      reads_itemsAll inside opened (place + 1) behind
    rw [Reading.appendAll_opened rfl, Open.appendAll_body rfl, List.append_nil] at second
    cases hasElse with
    | false =>
      obtain rfl := armless rfl
      obtain ⟨final, done, end', third⟩ := ReadsOn.item
        { reading with
          opened := ⟨{ head with body := body.reverse }, false, place⟩ :: reading.opened }
        next rest' fun _ => rfl
      refine ⟨final, done, end', ?_⟩
      rw [first opened opens, second, third]
      simp [Open.close, head]
    | true =>
      obtain rfl := arms rfl
      obtain ⟨middle, armLines, inArm, third⟩ := ReadsOn.item
        { reading with
          opened := ⟨{ head with body := body.reverse }, false, place⟩ :: reading.opened }
        next rest' fun _ => rfl
      obtain ⟨final, behindArm, inEnd, fourth⟩ := reads_itemsAll other { reading with
        opened := ⟨{ head with body := body.reverse, hasElse := true }, true, place⟩ ::
          reading.opened } middle inArm
      rw [Reading.appendAll_opened rfl, Open.appendAll_elseBody rfl, List.append_nil] at fourth
      obtain ⟨last, done, end', fifth⟩ := ReadsOn.item
        { reading with
          opened := ⟨{ head with
            body := body.reverse, elseBody := elseBody.reverse, hasElse := true }, true, place⟩ ::
              reading.opened }
        final inEnd fun _ => rfl
      refine ⟨last, done, end', ?_⟩
      rw [first opened opens, second, third, fourth, fifth]
      simp [Open.close, head]

theorem reads_itemsAll {body : List Instr} (formed : Instr.AllFormed body) (reading : Reading)
    (number : Nat) {lines : List (List Char)} {rest : List Item}
    (listed : itemsOf? lines = some (Instr.itemsAll body ++ rest)) :
    ReadsOn reading number lines rest (reading.appendAll body) := by
  cases body with
  | nil => exact ⟨number, lines, listed, rfl⟩
  | cons instr body =>
    rw [Instr.allFormed_cons] at formed
    rw [Instr.itemsAll, List.append_assoc] at listed
    obtain ⟨place, others, behind, first⟩ := reads_items formed.1 reading number listed
    obtain ⟨last, later, done, second⟩ :=
      reads_itemsAll formed.2 (reading.append instr) place behind
    exact ⟨last, later, done, first.trans second⟩

end

theorem bare_of_itemsOf? {lines : List (List Char)} {items : List Item}
    (listed : itemsOf? lines = some items) : ∀ item ∈ items, item.Bare := by
  induction lines generalizing items with
  | nil =>
    cases listed
    simp
  | cons line rest ih =>
    by_cases blank : lineWords line = []
    · rw [itemsOf?_blank blank] at listed
      exact ih listed
    · rw [itemsOf?_cons blank] at listed
      obtain ⟨item, stands, listed⟩ := Option.bind_eq_some_iff.mp listed
      obtain ⟨others, behind, rfl⟩ := Option.map_eq_some_iff.mp listed
      exact List.forall_mem_cons.mpr ⟨bare_of_item? stands, ih behind⟩

theorem Nested.listed {items : List Item} (nested : Nested items)
    (bare : ∀ item ∈ items, item.Bare) :
    ∃ body, Instr.AllFormed body ∧ Instr.itemsAll body = items := by
  induction nested with
  | nil => exact ⟨[], trivial, rfl⟩
  | @plain instr rest plain _ ih =>
    obtain ⟨bareInstr, others⟩ := List.forall_mem_cons.mp bare
    obtain ⟨body, formed, listed⟩ := ih others
    obtain ⟨_, noBody, noElseBody, noElse⟩ := id bareInstr
    refine ⟨instr :: body, Instr.allFormed_cons.mpr ⟨?_, formed⟩, ?_⟩
    · refine Instr.formed_iff.mpr ⟨fun _ => noBody, fun has => ?_, fun _ => noElseBody, ?_, ?_⟩
      · exact absurd (noElse.symm.trans has) Bool.false_ne_true
      · rw [noBody]
        trivial
      · rw [noElseBody]
        trivial
    · rw [Instr.itemsAll, Instr.items_plain plain, Bare.head bareInstr, listed]
      rfl
  | @construct instr inner rest structured _ _ inside behind =>
    rw [List.cons_append, List.forall_mem_cons, List.forall_mem_append,
      List.forall_mem_cons] at bare
    obtain ⟨bareInstr, bareBody, _, bareRest⟩ := bare
    obtain ⟨body, formedBody, listedBody⟩ := inside bareBody
    obtain ⟨others, formedOthers, listedOthers⟩ := behind bareRest
    have head : ({ instr with body, elseBody := [], hasElse := false } : Instr).head = instr :=
      Bare.head bareInstr
    refine ⟨{ instr with body, elseBody := [], hasElse := false } :: others,
      Instr.allFormed_cons.mpr ⟨?_, formedOthers⟩, ?_⟩
    · refine Instr.formed_iff.mpr ⟨fun plain => ?_, fun never => ?_, fun _ => rfl, formedBody, trivial⟩
      · exact absurd (structured.symm.trans plain) Bool.false_ne_true.symm
      · exact absurd never Bool.false_ne_true
    · rw [Instr.itemsAll, Instr.items_eq, head, if_pos structured, listedBody, listedOthers]
      simp
  | @armed instr inner arm rest isIf _ _ _ inside other behind =>
    rw [List.append_assoc, List.cons_append, List.cons_append, List.forall_mem_cons,
      List.forall_mem_append, List.forall_mem_cons, List.forall_mem_append,
      List.forall_mem_cons] at bare
    obtain ⟨bareInstr, bareBody, _, bareArm, _, bareRest⟩ := bare
    obtain ⟨body, formedBody, listedBody⟩ := inside bareBody
    obtain ⟨elseBody, formedElse, listedElse⟩ := other bareArm
    obtain ⟨others, formedOthers, listedOthers⟩ := behind bareRest
    have structured : instr.op.isStructured = true := by
      rw [isIf]
      rfl
    have head : ({ instr with body, elseBody, hasElse := true } : Instr).head = instr :=
      Bare.head bareInstr
    refine ⟨{ instr with body, elseBody, hasElse := true } :: others,
      Instr.allFormed_cons.mpr ⟨?_, formedOthers⟩, ?_⟩
    · refine Instr.formed_iff.mpr
        ⟨fun plain => ?_, fun _ => isIf, fun never => ?_, formedBody, formedElse⟩
      · exact absurd (structured.symm.trans plain) Bool.false_ne_true.symm
      · exact absurd never Bool.false_ne_true.symm
    · rw [Instr.itemsAll, Instr.items_eq, head, if_pos structured, if_pos rfl, listedBody,
        listedElse, listedOthers]
      simp

variable {text : String} {body : List Instr}

theorem parse_iff (short : ∀ line ∈ text.toList.splitOn '\n', Text.byteLength line < Text.lineLimit) :
    parse text = .ok body ↔
      Instr.AllFormed body ∧ itemsOf? (text.toList.splitOn '\n') = some (Instr.itemsAll body) := by
  have started : ({} : Reading).Formed := ⟨trivial, by simp⟩
  unfold parse
  rw [Text.splitLines_of_short short, ← itemsOf?_splitLines]
  generalize (Text.splitLinesFrom [] text.toList).map Text.dropReturn = lines
  dsimp only
  constructor
  · intro reads
    split at reads
    · cases reads
    · rename_i reading ok
      obtain ⟨formed, items, listed, same⟩ := readLines_items started ok
      rw [if_neg Bool.false_ne_true] at reads
      cases opened : reading.opened with
      | cons top rest =>
        rw [opened] at reads
        cases reads
      | nil =>
        rw [opened] at reads
        cases reads
        have all : Instr.itemsAll reading.finished.reverse = items := by
          simpa [Reading.items, opened, Instr.itemsAll] using same
        exact ⟨Instr.allFormed_reverse.mpr formed.finished, all ▸ listed⟩
  · rintro ⟨formed, listed⟩
    rw [← List.append_nil (Instr.itemsAll body)] at listed
    obtain ⟨place, others, nothing, reads⟩ := reads_itemsAll formed {} 1 listed
    rw [reads, readLines_blank nothing, Reading.appendAll_finished rfl]
    simp

theorem length_of_itemsOf? {lines : List (List Char)} {items : List Item}
    (listed : itemsOf? lines = some items) :
    items.length = lines.countP fun line => lineWords line ≠ [] := by
  induction lines generalizing items with
  | nil =>
    cases listed
    rfl
  | cons line rest ih =>
    by_cases blank : lineWords line = []
    · rw [itemsOf?_blank blank] at listed
      rw [ih listed, List.countP_cons_of_neg (by simp [blank])]
    · rw [itemsOf?_cons blank] at listed
      obtain ⟨item, _, listed⟩ := Option.bind_eq_some_iff.mp listed
      obtain ⟨others, behind, rfl⟩ := Option.map_eq_some_iff.mp listed
      rw [List.length_cons, ih behind, List.countP_cons_of_pos (by simp [blank])]

/-- A text without overlong lines is read exactly if every line that is not blank stands for an
item and the items are properly nested.  The tree that is read lists as these items and is the
only one that does so, and its count is the number of these lines. -/
theorem parse_preserves
    (short : ∀ line ∈ text.toList.splitOn '\n', Text.byteLength line < Text.lineLimit) :
    ((∃ body, parse text = .ok body) ↔
      ∃ items, itemsOf? (text.toList.splitOn '\n') = some items ∧ Nested items) ∧
    ∀ body, parse text = .ok body →
      itemsOf? (text.toList.splitOn '\n') = some (Instr.itemsAll body) ∧
      Instr.AllFormed body ∧
      (∀ other, Instr.AllFormed other → Instr.itemsAll other = Instr.itemsAll body → other = body) ∧
      Instr.countAll body =
        (text.toList.splitOn '\n').countP fun line => lineWords line ≠ [] := by
  constructor
  · constructor
    · rintro ⟨body, reads⟩
      obtain ⟨formed, listed⟩ := (parse_iff short).mp reads
      exact ⟨_, listed, formed.nested⟩
    · rintro ⟨items, listed, nested⟩
      obtain ⟨body, formed, rfl⟩ := nested.listed (bare_of_itemsOf? listed)
      exact ⟨body, (parse_iff short).mpr ⟨formed, listed⟩⟩
  · intro body reads
    obtain ⟨formed, listed⟩ := (parse_iff short).mp reads
    refine ⟨listed, formed, ?_, ?_⟩
    · intro other otherFormed same
      have again := (parse_iff short).mpr ⟨otherFormed, same ▸ listed⟩
      rw [reads] at again
      exact (Except.ok.inj again).symm
    · rw [← length_of_itemsOf? listed, Instr.length_itemsAll]

/-- A body with comments, blank lines and arms of both kinds. -/
def armsText : String :=
  "block (result i32) ;; outer\n\n  i32.const 1\n  if\r\n  nop\n else\nend\n drop;;\nend\n"

theorem parse_preserves_arms :
    ∃ body, parse armsText = .ok body ∧
      itemsOf? (armsText.toList.splitOn '\n') = some (Instr.itemsAll body) ∧
      Instr.countAll body = 8 := by
  have short : ∀ line ∈ armsText.toList.splitOn '\n', Text.byteLength line < Text.lineLimit := by
    decide +kernel
  have good : (parse armsText).isOk = true := by decide +kernel
  cases reads : parse armsText with
  | error cause =>
    rw [reads] at good
    cases good
  | ok body =>
    obtain ⟨listed, _, _, counted⟩ := (parse_preserves short).2 body reads
    exact ⟨body, rfl, listed, counted.trans (by decide +kernel)⟩

end WasmX64.Body
