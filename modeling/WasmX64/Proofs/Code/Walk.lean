import WasmX64.Proofs.Code.Field

/-!
# Walking a chain of label uses

The uses of a label that has no position yet form a chain through their own
placeholders, one for each width.  `Chained` reads such a chain off the code.  Binding
walks it, and the walk is a loop: `Ends` says that a loop of rounds comes to an end,
whatever bound on the rounds the walk is given.
-/

namespace WasmX64.Code

/-- The use before the one in a field, by its placeholder; the first use names
itself. -/
def previous (code : Code) (field : Field) : Int :=
  match field.distance with
  | .far => code.displacement field
  | .near => field.site + code.displacement field

/-- Sites of one width, latest first, each with a placeholder that names the next. -/
def Chained (code : Code) (distance : Distance) : List Nat → Prop
  | [] => True
  | site :: rest =>
    code.previous ⟨distance, site⟩ = (rest.head?.getD site : Nat) ∧
      Chained code distance rest

/-- Sites of one width, latest first, whose fields do not overlap. -/
def Descending (distance : Distance) (sites : List Nat) : Prop :=
  sites.Pairwise fun later earlier => earlier + distance.width ≤ later

/-- An offset inside a field of one of the sites. -/
def Within (distance : Distance) (sites : List Nat) (offset : Nat) : Prop :=
  ∃ site ∈ sites, (Field.mk distance site).Covers offset

/-- A loop comes to an end.  A round gives the final buffer, or the site and the
buffer of the next round. -/
inductive Ends (round : Int → Code → Code ⊕ (Int × Code)) : Int → Code → Code → Prop where
  | stop {site : Int} {code after : Code} (done : round site code = .inl after) :
      Ends round site code after
  | next {site other : Int} {code middle after : Code}
      (goes : round site code = .inr (other, middle)) (rest : Ends round other middle after) :
      Ends round site code after

/-- One round of filling in four-byte displacements. -/
def farRound (position : Nat) (site : Int) (code : Code) : Code ⊕ (Int × Code) :=
  let (next, code) := code.readWord site
  let next : Int := next.toInt32.toInt
  let code := code.patch site (bytes32 (wordOf (position - (site + 4))))
  if next = site ∨ code.error.isSome then .inl code else .inr (next, code)

/-- One round of filling in one-byte displacements. -/
def nearRound (position : Nat) (site : Int) (code : Code) : Code ⊕ (Int × Code) :=
  let back : Int := (code.byteAt site).toInt8.toInt
  let distance : Int := position - (site + 1)
  if 127 < distance then .inl (code.fail .nearRange)
  else
    let code := code.patch site [byteOf distance]
    if back = 0 ∨ code.error.isSome then .inl code else .inr (site + back, code)

theorem fillFar_succ (position fuel : Nat) (site : Int) (code : Code) :
    code.fillFar position (fuel + 1) site =
      (code.farRound position site).elim id fun next => next.2.fillFar position fuel next.1 := by
  rw [fillFar, farRound]
  dsimp only
  split
  · rfl
  · rfl

theorem fillNear_succ (position fuel : Nat) (site : Int) (code : Code) :
    code.fillNear position (fuel + 1) site =
      (code.nearRound position site).elim id
        fun next => next.2.fillNear position fuel next.1 := by
  rw [fillNear, nearRound]
  dsimp only
  split
  · rfl
  · split
    · rfl
    · rfl

theorem previous_congr {before after : Code} {field : Field}
    (same : after.displacement field = before.displacement field) :
    after.previous field = before.previous field := by
  simp only [previous, same]

theorem Chained.congr {before after : Code} {distance : Distance} {sites : List Nat}
    (same : ∀ site ∈ sites,
      after.displacement ⟨distance, site⟩ = before.displacement ⟨distance, site⟩)
    (chain : Chained before distance sites) : Chained after distance sites := by
  induction sites with
  | nil => trivial
  | cons site rest ih =>
    constructor
    · rw [previous_congr (same site List.mem_cons_self)]
      exact chain.1
    · apply ih
      · intro other member
        exact same other (List.mem_cons_of_mem site member)
      · exact chain.2

section Descending

variable {distance : Distance} {site : Nat} {rest : List Nat}

theorem Descending.apart (descends : Descending distance (site :: rest)) {other : Nat}
    (member : other ∈ rest) : (Field.mk distance other).Apart ⟨distance, site⟩ :=
  .inl (List.rel_of_pairwise_cons descends member)

theorem Descending.ne (descends : Descending distance (site :: rest)) {other : Nat}
    (member : other ∈ rest) : other ≠ site := by
  have below := List.rel_of_pairwise_cons descends member
  have positive := distance.width_pos
  omega

theorem Descending.rest_chained {before after : Code}
    (descends : Descending distance (site :: rest)) (chain : Chained before distance rest)
    (same : SameBut (Field.mk distance site).Covers before after) :
    Chained after distance rest := by
  apply chain.congr
  intro other member
  apply same.displacement
  intro offset covered
  exact (descends.apart member).not_covers covered

end Descending

/-- A buffer after a walk: nothing but the fields of the sites has changed. -/
structure Filled (distance : Distance) (position : Nat) (sites : List Nat)
    (before after : Code) : Prop where
  same : SameBut (Within distance sites) before after
  reads : ∀ site ∈ sites,
    after.displacement ⟨distance, site⟩ = position - (Field.mk distance site).finish
  error : after.error = before.error

theorem Filled.cons {distance : Distance} {position site : Nat} {rest : List Nat}
    {before middle after : Code} (descends : Descending distance (site :: rest))
    (first : SameBut (Field.mk distance site).Covers before middle)
    (reads : middle.displacement ⟨distance, site⟩ = position - (Field.mk distance site).finish)
    (error : middle.error = before.error) (others : Filled distance position rest middle after) :
    Filled distance position (site :: rest) before after := by
  constructor
  · apply (first.mono ?_).trans (others.same.mono ?_)
    · intro offset covered
      exact ⟨site, List.mem_cons_self, covered⟩
    · intro offset covered
      obtain ⟨other, member, inside⟩ := covered
      exact ⟨other, List.mem_cons_of_mem site member, inside⟩
  · intro other member
    cases List.mem_cons.mp member with
    | inl here =>
      subst here
      rw [← reads]
      apply others.same.displacement
      intro offset covered inside
      obtain ⟨later, memberLater, insideLater⟩ := inside
      exact (descends.apart memberLater).not_covers insideLater covered
    | inr there => exact others.reads other there
  · exact others.error.trans error

theorem Filled.nil (distance : Distance) (position : Nat) (code : Code) :
    Filled distance position [] code code := by
  constructor
  · exact SameBut.refl code
  · intro site member
    cases member
  · rfl

theorem SameBut.fail {touched : Nat → Prop} (code : Code) (error : CodeError) :
    SameBut touched code (code.fail error) := by
  unfold Code.fail
  split
  · exact SameBut.refl code
  · exact ⟨rfl, rfl, fun _ _ => rfl⟩

/-- A round at a site inside the code fills in its field and goes on to the use that the
placeholder names. -/
theorem farRound_fills {code : Code} {position site : Nat} {rest : List Nat}
    (chain : Chained code .far (site :: rest)) (descends : Descending .far (site :: rest))
    (inside : site + 4 ≤ code.size) (small : code.size ≤ 2147483647)
    (bound : position ≤ code.size) (sound : code.error = none) :
    ∃ middle, SameBut (Field.mk .far site).Covers code middle ∧
      middle.displacement ⟨.far, site⟩ = position - (Field.mk .far site).finish ∧
      middle.error = code.error ∧
      code.farRound position site =
        rest.head?.elim (.inl middle) fun (next : Nat) => .inr (↑next, middle) := by
  have fits : Distance.far.Fits ((position : Int) - (site + 4)) := by
    constructor
    · omega
    · omega
  obtain ⟨same, reads, error⟩ := patch_field ⟨.far, site⟩ inside fits
  refine ⟨_, same, reads, error, ?_⟩
  have covered : code.covers site 4 = true := by
    simp only [covers, Bool.and_eq_true, decide_eq_true_eq]
    omega
  have next : (code.wordAt site).toInt32.toInt = (rest.head?.getD site : Nat) := chain.1
  have goesOn : (code.patch site (bytes32 (wordOf (position - (site + 4))))).error = none :=
    error.trans sound
  simp only [farRound, readWord, covered, if_true, next, goesOn, Option.isSome_none,
    Bool.false_eq_true, or_false]
  cases rest with
  | nil => exact if_pos rfl
  | cons other rest =>
    have different : ¬ (other : Int) = site := by
      have := descends.ne List.mem_cons_self
      omega
    exact if_neg different

/-- The walk along four-byte uses fills in all of them and ends. -/
theorem fillFar_fills {code : Code} {position fuel site : Nat} {rest : List Nat}
    (chain : Chained code .far (site :: rest)) (descends : Descending .far (site :: rest))
    (inside : ∀ other ∈ site :: rest, other + 4 ≤ code.size)
    (small : code.size ≤ 2147483647) (bound : position ≤ code.size)
    (sound : code.error = none) (enough : rest.length < fuel) :
    Filled .far position (site :: rest) code (code.fillFar position fuel site) ∧
      Ends (farRound position) site code (code.fillFar position fuel site) := by
  induction rest generalizing site code fuel with
  | nil =>
    obtain ⟨middle, same, reads, error, round⟩ :=
      farRound_fills chain descends (inside site List.mem_cons_self) small bound sound
    cases fuel with
    | zero => cases enough
    | succ fuel =>
      rw [fillFar_succ, round]
      exact ⟨.cons descends same reads error (.nil _ _ _), .stop round⟩
  | cons next rest ih =>
    obtain ⟨middle, same, reads, error, round⟩ :=
      farRound_fills chain descends (inside site List.mem_cons_self) small bound sound
    cases fuel with
    | zero => cases enough
    | succ fuel =>
      have others : ∀ other ∈ next :: rest, other + 4 ≤ middle.size := by
        intro other member
        rw [same.size]
        exact inside other (List.mem_cons_of_mem site member)
      have goesOn := ih (descends.rest_chained chain.2 same) descends.of_cons others
        (same.size ▸ small) (same.size ▸ bound) (error.trans sound)
        (Nat.lt_of_succ_lt_succ enough)
      rw [fillFar_succ, round]
      exact ⟨.cons descends same reads error goesOn.1, .next round goesOn.2⟩

/-- A round at a one-byte use that reaches the position fills in its field and goes on to
the use that the placeholder names. -/
theorem nearRound_fills {code : Code} {position site : Nat} {rest : List Nat}
    (chain : Chained code .near (site :: rest)) (descends : Descending .near (site :: rest))
    (inside : site + 1 ≤ code.size) (later : site + 1 ≤ position)
    (reach : position ≤ site + 128) (sound : code.error = none) :
    ∃ middle, SameBut (Field.mk .near site).Covers code middle ∧
      middle.displacement ⟨.near, site⟩ = position - (Field.mk .near site).finish ∧
      middle.error = code.error ∧
      code.nearRound position site =
        rest.head?.elim (.inl middle) fun (next : Nat) => .inr (↑next, middle) := by
  have fits : Distance.near.Fits ((position : Int) - (site + 1)) := by
    constructor
    · omega
    · omega
  obtain ⟨same, reads, error⟩ := patch_field ⟨.near, site⟩ inside fits
  refine ⟨_, same, reads, error, ?_⟩
  have next : (site : Int) + (code.byteAt site).toInt8.toInt = (rest.head?.getD site : Nat) :=
    chain.1
  have goesOn : (code.patch site [byteOf ((position : Int) - (site + 1))]).error = none :=
    error.trans sound
  have reaches : ¬ (127 : Int) < position - (site + 1) := by omega
  simp only [nearRound, reaches, if_false, goesOn, Option.isSome_none, Bool.false_eq_true,
    or_false, next]
  cases rest with
  | nil =>
    have last : (code.byteAt site).toInt8.toInt = 0 := by
      simp only [List.head?_nil, Option.getD_none] at next
      omega
    exact if_pos last
  | cons other rest =>
    have different : ¬ (code.byteAt site).toInt8.toInt = 0 := by
      have := descends.ne List.mem_cons_self
      simp only [List.head?_cons, Option.getD_some] at next
      omega
    exact if_neg different

/-- The walk along one-byte uses that all reach the position fills in all of them and
ends. -/
theorem fillNear_fills {code : Code} {position fuel site : Nat} {rest : List Nat}
    (chain : Chained code .near (site :: rest)) (descends : Descending .near (site :: rest))
    (inside : ∀ other ∈ site :: rest, other + 1 ≤ code.size)
    (later : ∀ other ∈ site :: rest, other + 1 ≤ position)
    (reach : ∀ other ∈ site :: rest, position ≤ other + 128)
    (sound : code.error = none) (enough : rest.length < fuel) :
    Filled .near position (site :: rest) code (code.fillNear position fuel site) ∧
      Ends (nearRound position) site code (code.fillNear position fuel site) := by
  induction rest generalizing site code fuel with
  | nil =>
    obtain ⟨middle, same, reads, error, round⟩ :=
      nearRound_fills chain descends (inside site List.mem_cons_self)
        (later site List.mem_cons_self) (reach site List.mem_cons_self) sound
    cases fuel with
    | zero => cases enough
    | succ fuel =>
      rw [fillNear_succ, round]
      exact ⟨.cons descends same reads error (.nil _ _ _), .stop round⟩
  | cons next rest ih =>
    obtain ⟨middle, same, reads, error, round⟩ :=
      nearRound_fills chain descends (inside site List.mem_cons_self)
        (later site List.mem_cons_self) (reach site List.mem_cons_self) sound
    cases fuel with
    | zero => cases enough
    | succ fuel =>
      have goesOn := ih (descends.rest_chained chain.2 same) descends.of_cons
        (fun other member => same.size ▸ inside other (List.mem_cons_of_mem site member))
        (fun other member => later other (List.mem_cons_of_mem site member))
        (fun other member => reach other (List.mem_cons_of_mem site member))
        (error.trans sound) (Nat.lt_of_succ_lt_succ enough)
      rw [fillNear_succ, round]
      exact ⟨.cons descends same reads error goesOn.1, .next round goesOn.2⟩

/-- The walk along one-byte uses stops with an error at the first that does not reach the
position. -/
theorem fillNear_refuses {code : Code} {position fuel site : Nat} {rest : List Nat}
    (chain : Chained code .near (site :: rest)) (descends : Descending .near (site :: rest))
    (inside : ∀ other ∈ site :: rest, other + 1 ≤ code.size)
    (later : ∀ other ∈ site :: rest, other + 1 ≤ position)
    (beyond : ∃ other ∈ site :: rest, other + 128 < position)
    (sound : code.error = none) (enough : rest.length < fuel) :
    SameBut (Within .near (site :: rest)) code (code.fillNear position fuel site) ∧
      (code.fillNear position fuel site).error = some .nearRange ∧
      Ends (nearRound position) site code (code.fillNear position fuel site) := by
  induction rest generalizing site code fuel with
  | nil =>
    obtain ⟨other, member, far⟩ := beyond
    have here : other = site := List.mem_singleton.mp member
    subst here
    have stops : code.nearRound position other = .inl (code.fail .nearRange) :=
      if_pos (by omega)
    cases fuel with
    | zero => cases enough
    | succ fuel =>
      rw [fillNear_succ, stops]
      exact ⟨.fail code .nearRange, by simp [fail, sound], .stop stops⟩
  | cons next rest ih =>
    cases fuel with
    | zero => cases enough
    | succ fuel =>
      by_cases reach : position ≤ site + 128
      · obtain ⟨middle, same, reads, error, round⟩ :=
          nearRound_fills chain descends (inside site List.mem_cons_self)
            (later site List.mem_cons_self) reach sound
        have others : ∃ other ∈ next :: rest, other + 128 < position := by
          obtain ⟨other, member, far⟩ := beyond
          cases List.mem_cons.mp member with
          | inl here => omega
          | inr there => exact ⟨other, there, far⟩
        have goesOn := ih (descends.rest_chained chain.2 same) descends.of_cons
          (fun other member => same.size ▸ inside other (List.mem_cons_of_mem site member))
          (fun other member => later other (List.mem_cons_of_mem site member))
          others (error.trans sound) (Nat.lt_of_succ_lt_succ enough)
        rw [fillNear_succ, round]
        refine ⟨?_, goesOn.2.1, .next round goesOn.2.2⟩
        apply (same.mono ?_).trans (goesOn.1.mono ?_)
        · intro offset covered
          exact ⟨site, List.mem_cons_self, covered⟩
        · intro offset covered
          obtain ⟨other, member, within⟩ := covered
          exact ⟨other, List.mem_cons_of_mem site member, within⟩
      · have stops : code.nearRound position site = .inl (code.fail .nearRange) :=
          if_pos (by omega)
        rw [fillNear_succ, stops]
        exact ⟨.fail code .nearRange, by simp [fail, sound], .stop stops⟩

theorem fail_error (code : Code) (error : CodeError) : (code.fail error).error ≠ none := by
  unfold fail
  split
  · rename_i failed
    intro none
    rw [none] at failed
    cases failed
  · simp

/-- Bytes of a buffer may have been overwritten. -/
structure Rewrites (before after : Code) : Prop where
  error : after.error = none → before.error = none
  same : SameBut (fun _ => True) before after

namespace Rewrites

theorem refl (code : Code) : Rewrites code code :=
  ⟨id, SameBut.refl code⟩

theorem trans {first second third : Code} (left : Rewrites first second)
    (right : Rewrites second third) : Rewrites first third :=
  ⟨fun fine => left.error (right.error fine), left.same.trans right.same⟩

theorem fail (code : Code) (error : CodeError) : Rewrites code (code.fail error) :=
  ⟨fun fine => absurd fine (fail_error code error), SameBut.fail code error⟩

theorem patch (code : Code) (offset : Int) (bytes : List UInt8) :
    Rewrites code (code.patch offset bytes) := by
  unfold Code.patch
  split
  · constructor
    · exact id
    · constructor
      · rfl
      · exact size_overwrite _ _ _
      · intro place outside
        exact absurd trivial outside
  · exact fail code _

theorem readWord (code : Code) (offset : Int) : Rewrites code (code.readWord offset).2 := by
  unfold Code.readWord
  split
  · exact refl code
  · exact fail code _

theorem fillFar (position fuel : Nat) (site : Int) (code : Code) :
    Rewrites code (code.fillFar position fuel site) := by
  induction fuel generalizing site code with
  | zero => exact refl code
  | succ fuel ih =>
    have round := (readWord code site).trans
      (patch _ site (bytes32 (wordOf (position - (site + 4)))))
    rw [Code.fillFar]
    dsimp only
    split
    · exact round
    · exact round.trans (ih _ _)

theorem fillNear (position fuel : Nat) (site : Int) (code : Code) :
    Rewrites code (code.fillNear position fuel site) := by
  induction fuel generalizing site code with
  | zero => exact refl code
  | succ fuel ih =>
    have round := patch code site [byteOf (position - (site + 1))]
    rw [Code.fillNear]
    dsimp only
    split
    · exact fail code _
    · split
      · exact round
      · exact round.trans (ih _ _)

end Rewrites

end WasmX64.Code
