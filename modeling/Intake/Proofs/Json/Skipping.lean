import Intake.Json.Skip
import Intake.Proofs.Json.Reading

/-!
# Trees are skipped

`skip` passes over a value in a loop that keeps the lists and objects that are still open. `passed`
is what the loop leaves of a text in front of a value, `ended` what it leaves behind one. The text
of a tree takes the loop from the one to the other, whatever is open around it (`isPassed`), so a
tree of any depth is skipped and nothing behind it (`outcome_skip`). Nobody asks what a string that
is skipped stands for, and it need not stand for anything.
-/

set_option autoImplicit false
set_option relaxedAutoImplicit false

namespace Intake.Json

open Utf8

/-! ### Strings -/

theorem skipStringOnto_plain {source raw s : Bytes} (hraw : ∀ b ∈ raw, PlainByte b)
    (h : (raw ++ s).length ≤ source.length) (h' : s.length ≤ source.length) :
    outcome (skipStringOnto source (raw ++ s) h) = outcome (skipStringOnto source s h') := by
  induction raw with
  | nil => rfl
  | cons b raw ih =>
    obtain ⟨⟨hmark, hescape, hcontrol⟩, hmore⟩ := List.forall_mem_cons.mp hraw
    simp only [List.cons_append]
    rw [skipStringOnto, if_neg hmark, if_neg hescape, if_neg hcontrol]
    exact ih hmore _

/-- An escape is skipped as one, whatever it stands for. -/
theorem skipStringOnto_escape {source s rest : Bytes} {e : Escape}
    (hread : outcome (Escape.read s) = some (e, rest))
    (h : ('\\'.toUInt8 :: s).length ≤ source.length) (h' : rest.length ≤ source.length) :
    outcome (skipStringOnto source ('\\'.toUInt8 :: s) h) =
      outcome (skipStringOnto source rest h') := by
  obtain ⟨hshorter, hescape⟩ := exists_of_outcome_eq_some hread
  rw [skipStringOnto, if_neg (by decide), if_pos rfl, hescape]

theorem outcome_skipStringOnto (ps : Pieces) {source rest : Bytes}
    (h : (encode ps.chars ++ '"'.toUInt8 :: rest).length ≤ source.length) :
    outcome (skipStringOnto source (encode ps.chars ++ '"'.toUInt8 :: rest) h) =
      some ((), rest) := by
  induction ps with
  | nil =>
    simp only [Pieces.chars, List.flatMap_nil, encode_nil, List.nil_append]
    rw [skipStringOnto, if_pos rfl]
    rfl
  | cons p ps ih =>
    have hshorter : (encode (Pieces.chars ps) ++ '"'.toUInt8 :: rest).length ≤ source.length := by
      rw [encode_pieces_cons, List.append_assoc, List.length_append] at h
      exact Nat.le_trans (Nat.le_add_left _ _) h
    cases p with
    | plain c hc =>
      have hraw : ∀ b ∈ encode (Piece.plain c hc).chars, PlainByte b := by
        simpa [Piece.chars] using plainByte_of_plain hc
      simp only [encode_pieces_cons, List.append_assoc]
      rw [skipStringOnto_plain hraw _ hshorter, ih]
    | short e =>
      have hread := congrArg outcome
        (Escape.read_short e (encode (Pieces.chars ps) ++ '"'.toUInt8 :: rest))
      simp only [encode_pieces_cons, encode_short, List.cons_append, List.nil_append]
      rw [skipStringOnto_escape hread _ hshorter, ih]
    | unit u =>
      have hread : outcome (Escape.read ('u'.toUInt8 :: (encode u.chars ++
          (encode (Pieces.chars ps) ++ '"'.toUInt8 :: rest)))) =
            some (.unit u.value, encode (Pieces.chars ps) ++ '"'.toUInt8 :: rest) := by
        rw [Escape.outcome_read_unit, Escape.outcome_hexUnit]
        rfl
      simp only [encode_pieces_cons, encode_unit, List.append_assoc, List.cons_append]
      rw [skipStringOnto_escape hread _ hshorter, ih]

/-- Pieces in front of a quotation mark are skipped. -/
theorem outcome_skipString (ps : Pieces) (rest : Bytes) :
    outcome (skipString (encode ps.chars ++ '"'.toUInt8 :: rest)) = some ((), rest) :=
  outcome_skipStringOnto ps _

/-- A key is skipped with the colon behind it. -/
theorem outcome_skipKey {s rest : Bytes} {key : Pieces} {between : Blanks}
    (h : skipBlanks s = '"'.toUInt8 :: (encode key.chars ++ '"'.toUInt8 ::
      (encode between.chars ++ ':'.toUInt8 :: rest))) : outcome (skipKey s) = some ((), rest) := by
  have hcolon : outcome (colon (encode between.chars ++ ':'.toUInt8 :: rest)) = some ((), rest) :=
    outcome_colon_iff.mpr (skipBlanks_encode_cons between rest (by decide))
  obtain ⟨hshorter, hkey⟩ := exists_of_outcome_eq_some
    (outcome_skipString key (encode between.chars ++ ':'.toUInt8 :: rest))
  unfold skipKey
  split
  · rename_i hnil
    exact absurd (h.symm.trans hnil) (by simp)
  · rename_i b after hs
    obtain ⟨rfl, rfl⟩ := List.cons.inj (h.symm.trans hs)
    rw [if_pos rfl, hkey]
    dsimp only
    rw [outcome_map_widen, hcolon]

/-! ### The loop -/

/-- What is left of a text in front of a value once the value and all that is open have ended. -/
def passed (stack : List Enclosing) (s : Bytes) : Option Bytes :=
  (outcome (skipOnto s stack s (length_le_self s))).map Prod.snd

/-- What is left once all has ended that a step has left open. -/
def resumed : List Enclosing × Bytes → Option Bytes
  | ([], rest) => some rest
  | (top :: stack, rest) => passed (top :: stack) rest

/-- What is left of a text in front of an item or a member. -/
def entered (top : Enclosing) (stack : List Enclosing) (s : Bytes) : Option Bytes :=
  match top with
  | .list => passed (.list :: stack) s
  | .object => (outcome (skipKey s)).bind fun p ↦ passed (.object :: stack) p.2

/-- What is left of a text behind a value once all that is open has ended. -/
def ended : List Enclosing → Bytes → Option Bytes
  | [], s => some s
  | top :: stack, s =>
    match skipBlanks s with
    | [] => none
    | b :: rest =>
      if b = ','.toUInt8 then entered top stack rest
      else if b = top.closer then ended stack rest
      else none

/-- What is left of a text behind the opening of a list or an object. -/
def opened (top : Enclosing) (stack : List Enclosing) (s : Bytes) : Option Bytes :=
  match skipBlanks s with
  | [] => none
  | b :: rest => if b = top.closer then ended stack rest else entered top stack (b :: rest)

section Loop

variable {source : Bytes} (top : Enclosing) (stack : List Enclosing)

theorem map_snd_skipOnto {source' s : Bytes} (h : s.length ≤ source.length)
    (h' : s.length ≤ source'.length) :
    (outcome (skipOnto source stack s h)).map Prod.snd =
      (outcome (skipOnto source' stack s h')).map Prod.snd := by
  fun_induction skipOnto source stack s h with
  | case1 stack s h e hstep =>
    rw [skipOnto, hstep]
    rfl
  | case2 stack s h rest hshorter hstep =>
    rw [skipOnto, hstep]
    rfl
  | case3 stack s h top stack' rest hshorter hstep ih =>
    rw [ih, skipOnto.eq_def source' stack, hstep]

theorem passed_eq (s : Bytes) : passed stack s = (outcome (skipStep stack s)).bind resumed := by
  rw [passed, skipOnto]
  cases skipStep stack s with
  | error e => rfl
  | ok t =>
    obtain ⟨open', rest, hshorter⟩ := t
    cases open' with
    | nil => rfl
    | cons top stack' => exact map_snd_skipOnto _ _ _

theorem resumed_toNext {s : Bytes} (h : s.length < source.length) :
    (outcome (toNext top stack s h)).bind resumed = entered top stack s := by
  cases top with
  | list => rfl
  | object =>
    rw [toNext, entered]
    cases skipKey s with
    | error e => rfl
    | ok t => rfl

theorem ended_of_head {s rest : Bytes} {b : UInt8} (h : skipBlanks s = b :: rest) :
    ended (top :: stack) s =
      if b = ','.toUInt8 then entered top stack rest
      else if b = top.closer then ended stack rest
      else none := by
  rw [ended, h]

theorem opened_of_head {s rest : Bytes} {b : UInt8} (h : skipBlanks s = b :: rest) :
    opened top stack s =
      if b = top.closer then ended stack rest else entered top stack (b :: rest) := by
  rw [opened, h]

theorem resumed_skipEnds {s : Bytes} (h : s.length < source.length) :
    (outcome (skipEnds stack s h)).bind resumed = ended stack s := by
  induction stack generalizing s with
  | nil => rfl
  | cons top stack ih =>
    unfold skipEnds
    split
    · rename_i hs
      rw [ended, hs]
      rfl
    · rename_i b rest hs
      rw [ended_of_head top stack hs]
      dsimp only
      split_ifs with hcomma hcloser
      · exact resumed_toNext top stack _
      · exact ih _
      · rfl

theorem resumed_skipOpening {s : Bytes} (h : s.length < source.length) :
    (outcome (skipOpening top stack s h)).bind resumed = opened top stack s := by
  unfold skipOpening
  split
  · rename_i hs
    rw [opened, hs]
    rfl
  · rename_i b rest hs
    rw [opened_of_head top stack hs]
    dsimp only
    split_ifs with hcloser
    · exact resumed_skipEnds stack _
    · exact resumed_toNext top stack _

/-- How the loop goes on depends on the first byte. -/
theorem passed_of_head {s rest : Bytes} {b : UInt8} (h : skipBlanks s = b :: rest) :
    passed stack s =
      if b = 'n'.toUInt8 then (word ['u', 'l', 'l'] rest).toOption.bind (ended stack)
      else if b = 't'.toUInt8 then (word ['r', 'u', 'e'] rest).toOption.bind (ended stack)
      else if b = 'f'.toUInt8 then (word ['a', 'l', 's', 'e'] rest).toOption.bind (ended stack)
      else if Numeral.begins b then
        (Numeral.read (b :: rest)).toOption.bind fun p ↦ ended stack p.2
      else if b = '"'.toUInt8 then (outcome (skipString rest)).bind fun p ↦ ended stack p.2
      else if b = '['.toUInt8 then opened .list stack rest
      else if b = '\x7b'.toUInt8 then opened .object stack rest
      else none := by
  rw [passed_eq]
  unfold skipStep
  split
  · rename_i hnil
    exact absurd (h.symm.trans hnil) (by simp)
  · rename_i b' rest' hs
    obtain ⟨rfl, rfl⟩ := List.cons.inj (h.symm.trans hs)
    split_ifs with hn ht hf hnumber hstring hlist hobject
    iterate 3
      · dsimp only
        split
        · rename_i e he
          rw [he]
          rfl
        · rename_i after hafter
          rw [resumed_skipEnds, hafter]
          rfl
    · split
      · rename_i broken hbroken
        rw [hbroken]
        rfl
      · rename_i n after hread
        dsimp only
        rw [resumed_skipEnds, hread]
        rfl
    · cases skipString rest with
      | error e => rfl
      | ok t => exact resumed_skipEnds stack _
    · exact resumed_skipOpening .list stack _
    · exact resumed_skipOpening .object stack _
    · rfl

theorem passed_eq_none {s : Bytes} (h : skipBlanks s = []) : passed stack s = none := by
  rw [passed_eq]
  unfold skipStep
  split
  · rfl
  · rename_i b rest hs
    exact absurd (h.symm.trans hs) (by simp)

theorem passed_congr {s s' : Bytes} (h : skipBlanks s = skipBlanks s') :
    passed stack s = passed stack s' := by
  cases hs : skipBlanks s' with
  | nil => rw [passed_eq_none stack (h.trans hs), passed_eq_none stack hs]
  | cons b rest => rw [passed_of_head stack (h.trans hs), passed_of_head stack hs]

theorem passed_blanks (u : Blanks) (s : Bytes) :
    passed stack (encode u.chars ++ s) = passed stack s :=
  passed_congr stack (skipBlanks_encode u s)

theorem ended_blanks (u : Blanks) (s : Bytes) :
    ended (top :: stack) (encode u.chars ++ s) = ended (top :: stack) s := by
  rw [ended, ended, skipBlanks_encode]

theorem ended_comma (s : Bytes) :
    ended (top :: stack) (','.toUInt8 :: s) = entered top stack s := by
  rw [ended_of_head top stack (skipBlanks_of_not_isBlank s (by decide)), if_pos rfl]

theorem ended_closer (s : Bytes) : ended (top :: stack) (top.closer :: s) = ended stack s := by
  have hcloser : isBlank top.closer = false ∧ top.closer ≠ ','.toUInt8 := by
    cases top with
    | list => decide
    | object => decide
  rw [ended_of_head top stack (skipBlanks_of_not_isBlank s hcloser.1), if_neg hcloser.2,
    if_pos rfl]

theorem opened_closer {s rest : Bytes} (h : skipBlanks s = top.closer :: rest) :
    opened top stack s = ended stack rest := by
  rw [opened_of_head top stack h, if_pos rfl]

theorem opened_list {s rest : Bytes} {b : UInt8} (h : skipBlanks s = b :: rest)
    (hb : b ≠ ']'.toUInt8) : opened .list stack s = passed (.list :: stack) s := by
  rw [opened_of_head .list stack h, Enclosing.closer, if_neg hb, entered]
  exact passed_congr _ ((skipBlanks_of_not_isBlank rest (not_isBlank_of_skipBlanks h)).trans h.symm)

theorem opened_object {s rest : Bytes} (h : skipBlanks s = '"'.toUInt8 :: rest) :
    opened .object stack s = entered .object stack ('"'.toUInt8 :: rest) := by
  rw [opened_of_head .object stack h, Enclosing.closer, if_neg mark_ne_brace]

end Loop

/-! ### Trees -/

section Trees

open Json.Tree

/-- The text of a tree takes the loop from in front of a value to behind it. -/
def IsPassed (t : Tree) : Prop :=
  ∀ (stack : List Enclosing) {s : Bytes}, EndsNumber s →
    passed stack (encode t.chars ++ s) = ended stack s

theorem isPassed_null : IsPassed .null := by
  intro stack s _
  have hword : word ['u', 'l', 'l'] (encode ['u', 'l', 'l'] ++ s) = .ok s :=
    (word_eq_ok_iff (by decide)).mpr rfl
  rw [Tree.chars, encode_ascii_cons (by decide),
    passed_of_head stack (skipBlanks_of_not_isBlank _ (by decide)), if_pos rfl, hword]
  rfl

theorem isPassed_bool (b : Bool) : IsPassed (.bool b) := by
  intro stack s _
  cases b with
  | true =>
    have hword : word ['r', 'u', 'e'] (encode ['r', 'u', 'e'] ++ s) = .ok s :=
      (word_eq_ok_iff (by decide)).mpr rfl
    rw [Tree.chars, encode_ascii_cons (by decide),
      passed_of_head stack (skipBlanks_of_not_isBlank _ (by decide)), if_neg (by decide),
      if_pos rfl, hword]
    rfl
  | false =>
    have hword : word ['a', 'l', 's', 'e'] (encode ['a', 'l', 's', 'e'] ++ s) = .ok s :=
      (word_eq_ok_iff (by decide)).mpr rfl
    rw [Tree.chars, encode_ascii_cons (by decide),
      passed_of_head stack (skipBlanks_of_not_isBlank _ (by decide)), if_neg (by decide),
      if_neg (by decide), if_pos rfl, hword]
    rfl

theorem isPassed_number (l : Literal) : IsPassed (.number l) := by
  intro stack s hs
  obtain ⟨b, more, hform, hb⟩ := Numeral.exists_encode_literal l
  have hread := Numeral.read_literal l hs
  rw [Tree.chars, hform, List.cons_append] at *
  rw [passed_of_head stack (skipBlanks_of_not_isBlank _ (not_isBlank_of_begins hb)),
    if_neg (ne_of_begins hb (by decide)), if_neg (ne_of_begins hb (by decide)),
    if_neg (ne_of_begins hb (by decide)), if_pos hb, hread]
  rfl

theorem isPassed_string (ps : Pieces) : IsPassed (.string ps) := by
  intro stack s _
  rw [encode_string, passed_of_head stack (skipBlanks_of_not_isBlank _ (by decide)),
    if_neg (by decide), if_neg (by decide), if_neg (by decide), if_neg (by decide), if_pos rfl,
    outcome_skipString]
  rfl

variable (stack : List Enclosing)

theorem passed_list (inner : Blanks) (items : List (Padded Tree)) (s : Bytes) :
    passed stack (encode (Tree.list inner items).chars ++ s) =
      opened .list stack (encode inner.chars ++ listBody items s) := by
  rw [encode_list, passed_of_head stack (skipBlanks_of_not_isBlank _ (by decide)),
    if_neg (by decide), if_neg (by decide), if_neg (by decide), if_neg (by decide),
    if_neg (by decide), if_pos rfl]

theorem passed_object (inner : Blanks) (members : List (Member Tree)) (s : Bytes) :
    passed stack (encode (Tree.object inner members).chars ++ s) =
      opened .object stack (encode inner.chars ++ objectBody members s) := by
  rw [encode_object, passed_of_head stack (skipBlanks_of_not_isBlank _ (by decide)),
    if_neg (by decide), if_neg (by decide), if_neg (by decide), if_neg (by decide),
    if_neg (by decide), if_neg (by decide), if_pos rfl]

variable {stack}

theorem passed_item {before after : Blanks} {t : Tree} {items : List (Padded Tree)} {s : Bytes}
    (ht : IsPassed t) :
    passed (.list :: stack) (encode before.chars ++ (encode t.chars ++
        (encode after.chars ++ listTail items s))) = ended (.list :: stack) (listTail items s) := by
  rw [passed_blanks, ht _ (endsNumber_blanks after (endsNumber_listTail items s)), ended_blanks]

theorem entered_member {between behind after : Blanks} {key : Pieces} {t : Tree}
    {members : List (Member Tree)} {s rest : Bytes} (ht : IsPassed t)
    (h : skipBlanks s = '"'.toUInt8 :: (encode key.chars ++ '"'.toUInt8 ::
      memberTail between behind after t (objectTail members rest))) :
    entered .object stack s = ended (.object :: stack) (objectTail members rest) := by
  rw [entered, outcome_skipKey h, Option.bind_some, passed_blanks,
    ht _ (endsNumber_blanks after (endsNumber_objectTail members rest)), ended_blanks]

mutual

/-- The text of a tree takes the loop behind it, whatever is open around it. -/
theorem isPassed (t : Tree) : IsPassed t := by
  match t with
  | .null => exact isPassed_null
  | .bool b => exact isPassed_bool b
  | .number l => exact isPassed_number l
  | .string ps => exact isPassed_string ps
  | .list inner [] =>
    intro stack s _
    rw [passed_list, opened_closer .list stack skipBlanks_listBody_nil]
  | .list inner (⟨before, t, after⟩ :: items) =>
    intro stack s _
    obtain ⟨b, more, hform, -, hbracket, -⟩ := exists_encode_tree t
    have hfirst : skipBlanks (encode inner.chars ++ listBody (⟨before, t, after⟩ :: items) s) =
        b :: (more ++ (encode after.chars ++ listTail items s)) := by
      rw [skipBlanks_listBody_cons, hform, List.cons_append]
    rw [passed_list, opened_list stack hfirst hbracket, passed_blanks, listBody_cons,
      passed_item (isPassed t), ended_listTail]
  | .object inner [] =>
    intro stack s _
    rw [passed_object, opened_closer .object stack skipBlanks_objectBody_nil]
  | .object inner (⟨before, key, between, behind, t, after⟩ :: members) =>
    intro stack s _
    rw [passed_object, opened_object stack skipBlanks_objectBody_cons,
      entered_member (isPassed t) (skipBlanks_of_not_isBlank _ (by decide)), ended_objectTail]

theorem ended_listTail (items : List (Padded Tree)) (stack : List Enclosing) (s : Bytes) :
    ended (.list :: stack) (listTail items s) = ended stack s := by
  match items with
  | [] =>
    rw [listTail_nil]
    exact ended_closer .list stack s
  | ⟨before, t, after⟩ :: items =>
    rw [listTail_cons, ended_comma, entered, passed_item (isPassed t), ended_listTail]

theorem ended_objectTail (members : List (Member Tree)) (stack : List Enclosing) (s : Bytes) :
    ended (.object :: stack) (objectTail members s) = ended stack s := by
  match members with
  | [] =>
    rw [objectTail_nil]
    exact ended_closer .object stack s
  | ⟨before, key, between, behind, t, after⟩ :: members =>
    rw [objectTail_cons, ended_comma,
      entered_member (isPassed t) (skipBlanks_encode_cons before _ (by decide)), ended_objectTail]

end

/-- A tree is skipped with the blanks in front of it, and nothing behind it. -/
theorem outcome_skip (u : Blanks) (t : Tree) {s : Bytes} (hs : EndsNumber s) :
    outcome (skip (encode u.chars ++ (encode t.chars ++ s))) = some ((), s) := by
  have hpassed : passed [] (encode u.chars ++ (encode t.chars ++ s)) = some s := by
    rw [passed_blanks, isPassed t [] hs, ended]
  rw [passed, Option.map_eq_some_iff] at hpassed
  obtain ⟨⟨_, rest⟩, hskip, rfl⟩ := hpassed
  exact hskip

end Trees

end Intake.Json
