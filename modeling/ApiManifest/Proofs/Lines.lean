import ApiManifest.Proofs.Lexing

/-!
# Tokens of lines

How the lexer goes through fields on lines of their own. A mapping begins with the colon of its
first field. It ends where a line is indented less, or where the text ends: behind the last line of
a mapping, the token for its end is not there yet. What is owed in this way is known from the
columns of the collections that have begun.
-/

namespace ApiManifest.Yaml

namespace Lexer

variable {l l' : Lexer}

/-! ## Fields -/

/-- Once the collections that are indented by more than a column are ended, these are the tokens,
the last one first, and the columns of the innermost collection and of those around it. -/
def EndsTo (l : Lexer) (column : Int) (tokens : List Token) (indent : Int) (outer : List Int) :
    Prop :=
  ∃ deeper, l.indent :: l.outer = deeper ++ indent :: outer ∧ (∀ d ∈ deeper, column < d) ∧
    tokens = List.replicate deeper.length .blockEnd ++ l.tokens

theorem unwindFrom_of_endsTo {column indent : Int} {tokens : List Token} {outer : List Int}
    (h : l.EndsTo column tokens indent outer) (hle : indent ≤ column)
    (hcount : l.count = l.tokens.length) :
    unwindFrom column l l.outer = { l with tokens, count := tokens.length, indent, outer } := by
  obtain ⟨deeper, hindents, hdeeper, rfl⟩ := h
  induction deeper generalizing l with
  | nil =>
      obtain ⟨hindent, houter⟩ := List.cons.inj hindents
      have hself : ({ l with count := l.tokens.length } : Lexer) = l := by rw [← hcount]
      subst hindent houter
      simp only [List.length_nil, List.replicate_zero, List.nil_append, hself]
      cases l.outer with
      | nil => rfl
      | cons => rw [unwindFrom, if_neg (by omega)]
  | cons d deeper ih =>
      obtain ⟨hindent, houter⟩ := List.cons.inj hindents
      obtain ⟨hd, hdeeper⟩ := List.forall_mem_cons.mp hdeeper
      cases hne : l.outer with
      | nil => simp [hne] at houter
      | cons previous around =>
          -- the innermost collection ends here, and then those around it do
          rw [unwindFrom, if_pos (hindent ▸ hd)]
          refine (ih (by simp [Lexer.push, hcount]) (hne.symm.trans houter) hdeeper).trans ?_
          simp [Lexer.push, List.replicate_succ', List.append_assoc]

theorem unwind_of_endsTo {column indent : Int} {tokens : List Token} {outer : List Int}
    (h : l.EndsTo column tokens indent outer) (hle : indent ≤ column) (hrests : l.Rests 0) :
    l.unwind column = { l with tokens, count := tokens.length, indent, outer } := by
  rw [unwind, if_neg (by simp [hrests.inFlow])]
  exact unwindFrom_of_endsTo h hle hrests.count

/-! ### Names -/

/-- A letter is no sign, no blank and no digit. -/
theorem ne_of_isAlpha {c d : Char} (hc : c.isAlpha) (hd : d.isAlpha = false) : c ≠ d := by
  rintro rfl
  simp [hc] at hd

theorem isSpace_of_isAlpha {c : Char} (hc : c.isAlpha) : isSpace c = false := by
  simp only [isSpace, isBreak, Bool.or_eq_false_iff, beq_eq_false_iff_ne]
  refine ⟨⟨?_, ?_⟩, ⟨⟨⟨?_, ?_⟩, ?_⟩, ?_⟩, ?_⟩ <;> exact ne_of_isAlpha hc (by decide)

theorem isTokenStart_of_isAlpha {c : Char} (hc : c.isAlpha) : isTokenStart c := by
  have hspace := isSpace_of_isAlpha hc
  simp only [isSpace, Bool.or_eq_false_iff, beq_eq_false_iff_ne] at hspace
  have hhash : c ≠ '#' := ne_of_isAlpha hc (by decide)
  have hmark : c ≠ '\uFEFF' := ne_of_isAlpha hc (by decide)
  simp [isTokenStart, hspace, hhash, hmark]

/-- A word of letters ends at a colon. -/
theorem plainFrom_word {word : List Char} (hword : word.all Char.isAlpha) {rest : List Char}
    (hspace : spaceAhead rest) (indent : Int) (read : List Char) (p : Place) :
    plainFrom false indent .words read p (word ++ ':' :: rest)
      = { text := textOf (word.reverse ++ read)
          cursor := ⟨⟨p.index + word.length, p.line, p.column + word.length⟩, ':' :: rest⟩ } := by
  induction word generalizing read p with
  | nil =>
      rw [List.nil_append, plainFrom]
      simp [joinsNext, isBreak, endsPlain, hspace, isSpace]
  | cons c word ih =>
      simp only [List.all_cons, Bool.and_eq_true] at hword
      have hc := isSpace_of_isAlpha hword.1
      have hcolon : c ≠ ':' := ne_of_isAlpha hword.1 (by decide)
      have hmark : c ≠ '\uFEFF' := ne_of_isAlpha hword.1 (by decide)
      have hends : endsPlain false c (word ++ ':' :: rest) = false := by
        simp [endsPlain, hc, hcolon]
      simp only [isSpace, Bool.or_eq_false_iff, beq_eq_false_iff_ne] at hc
      rw [List.cons_append, plainFrom]
      simp only [hc, joinsNext_of_not_isBreak hc.2, hends, if_false, Bool.false_eq_true]
      rw [ih hword.2]
      simp [Place.after, hc, hmark]
      omega

theorem beginsPlain_of_isAlpha {c : Char} (hc : c.isAlpha) (flow : Bool) (rest : List Char) :
    beginsPlain flow c rest := by
  have hsign : "-?:,[]\x7b\x7d#&*!|>'\"%@`".toList.contains c = false := by
    rw [List.contains_eq_any_beq, List.any_eq_false]
    have hsigns : ("-?:,[]\x7b\x7d#&*!|>'\"%@`".toList.all fun d => !d.isAlpha) = true := by decide
    intro d hd
    have hsign : d.isAlpha = false := by simpa using List.all_eq_true.mp hsigns d hd
    simpa using ne_of_isAlpha hc hsign
  rw [beginsPlain, isSpace_of_isAlpha hc, hsign]
  rfl

theorem documentMark_of_isAlpha {c : Char} (hc : c.isAlpha) (rest : List Char) :
    documentMark (c :: rest) = false := by
  have hdash : c ≠ '-' := ne_of_isAlpha hc (by decide)
  have hdot : c ≠ '.' := ne_of_isAlpha hc (by decide)
  unfold documentMark
  split <;> simp_all

theorem readToken_of_isAlpha {c : Char} (hc : c.isAlpha) (rest : List Char) :
    l.readToken c rest = l.readPlain := by
  have hne {d : Char} (hd : d.isAlpha = false) : c ≠ d := ne_of_isAlpha hc hd
  have hbegins := beginsPlain_of_isAlpha hc l.inFlow rest
  unfold readToken
  simp [hne (d := '%') rfl, hne (d := '[') rfl, hne (d := ']') rfl, hne (d := '\x7b') rfl,
    hne (d := '\x7d') rfl, hne (d := ',') rfl, hne (d := '-') rfl, hne (d := '?') rfl,
    hne (d := ':') rfl, hne (d := '*') rfl, hne (d := '&') rfl, hne (d := '!') rfl,
    hne (d := '|') rfl, hne (d := '>') rfl, hne (d := '\'') rfl, hne (d := '"') rfl,
    documentMark_of_isAlpha hc, hbegins]

/-- Up to the next line, the collections that end before it are ended. -/
theorem Opens.next {column : Nat} {chars : List Char} {tokens : List Token} {indent : Int}
    {outer : List Int} (h : l.Opens column chars) (hrests : l.Rests 0)
    (hends : l.EndsTo column tokens indent outer) (hle : indent ≤ column) :
    ∃ (place : Place) (keys : List (Option PossibleKey)) (next next' : Lexer),
      place.column = column ∧ l.skipGap.dropStaleKeys = .ok next ∧
      next.unwind next.cursor.place.column = next' ∧ next'.Rests 0 ∧
      next' = { cursor := ⟨place, chars⟩, tokens, count := tokens.length, indent, outer, keys }
    := by
  obtain ⟨place, hcolumn, hskip⟩ := h
  have hrests₀ : ({ l with cursor := ⟨place, chars⟩, keyAllowed := true } : Lexer).Rests 0 :=
    ⟨hrests.depth, hrests.unforced, hrests.count⟩
  obtain ⟨keys, hkeys, hrests₁⟩ := hrests₀.dropStaleKeys
  refine ⟨place, keys, _, _, hcolumn, (congrArg Lexer.dropStaleKeys hskip).trans hkeys, ?_, ?_, rfl⟩
  · subst hcolumn
    refine unwind_of_endsTo ?_ hle hrests₁
    exact hends
  · exact ⟨hrests₁.depth, hrests₁.unforced, rfl⟩

/-- The lexer behind a word at a place, when the word begins a line and a colon follows. The word
may turn out to be a key. -/
def behindWord (word : List Char) (place : Place) (rest : List Char) (tokens : List Token)
    (indent : Int) (outer : List Int) : Lexer where
  cursor := ⟨⟨place.index + word.length, place.line, place.column + word.length⟩, ':' :: rest⟩
  tokens := .scalar (String.ofList word) true :: tokens
  count := tokens.length + 1
  indent := indent
  outer := outer
  keyAllowed := false
  keys := [some ⟨tokens.length, place, indent == place.column⟩]

theorem readPlain_word {word rest : List Char} {place : Place} (hrests : l.Rests 0)
    (hallowed : l.keyAllowed = true) (hcursor : l.cursor = ⟨place, word ++ ':' :: rest⟩)
    (hword : word.all Char.isAlpha) (hspace : spaceAhead rest) :
    l.readPlain = .ok (behindWord word place rest l.tokens l.indent l.outer) := by
  have hflow : l.inFlow = false := by simp [hrests.inFlow]
  have hkeys : l.keys.drop 1 = [] := List.drop_eq_nil_of_le (Nat.le_of_eq hrests.depth)
  have hnote : l.noteKey
      = .ok { l with keys := [some ⟨l.count, place, l.indent == place.column⟩] } := by
    rw [noteKey, if_pos hallowed, hrests.dropKey]
    simp [hflow, hcursor, Lexer.setKey, hkeys, bind, Except.bind, pure, Except.pure]
  rw [readPlain, hnote]
  simp [Lexeme.plain, hcursor, Lexer.inFlow, plainFrom_word hword hspace, Lexer.push, textOf, bind,
    Except.bind, pure, Except.pure, behindWord, hrests.count]

/-- The name of a field, at the beginning of a line. -/
theorem reads_name {name : FieldName} {column : Nat} {rest : List Char} {tokens : List Token}
    {indent : Int} {outer : List Int} (hrests : l.Rests 0)
    (hopens : l.Opens column (name.text.toList ++ ':' :: rest)) (hspace : spaceAhead rest)
    (hends : l.EndsTo column tokens indent outer) (hle : indent ≤ column) : ∃ place : Place,
    place.column = column ∧
      Reads l (behindWord name.text.toList place rest tokens indent outer) := by
  obtain ⟨place, keys, next, next', hcolumn, hgap, hunwind, hrests', rfl⟩ :=
    hopens.next hrests hends hle
  obtain ⟨c, cs, hname⟩ := List.exists_cons_of_ne_nil name.ne_nil
  have hc : c.isAlpha := List.all_eq_true.mp name.isAlpha c (by simp [hname])
  refine ⟨place, hcolumn, .token hgap hunwind (by rw [hname]; rfl) ?_ ?_⟩
  · rw [readToken_of_isAlpha hc]
    exact readPlain_word hrests' rfl rfl name.isAlpha hspace
  · obtain ⟨_, _, hskip⟩ := hopens
    have hlength := length_skipGap l
    rw [hskip, hname] at hlength
    simp [behindWord] at hlength ⊢
    omega

/-- The tokens behind a field's colon, the last one first, when these stood in front of its name. A
mapping begins there, unless the field belongs to one that has begun. -/
def fieldStart (name : String) (indent column : Int) (tokens : List Token) : List Token :=
  .value :: .scalar name true :: .key ::
    (if indent < column then .blockMappingStart :: tokens else tokens)

/-- The columns around a mapping. -/
def around (indent column : Int) (outer : List Int) : List Int :=
  if indent < column then indent :: outer else outer

theorem dropStaleKeys_of_isCurrent
    (h : ∀ key ∈ l.keys, key.all (·.isCurrent l.cursor.place)) : l.dropStaleKeys = .ok l := by
  have hnone : (l.keys.any (·.any fun key => !key.isCurrent l.cursor.place && key.required))
      = false := by
    rw [List.any_eq_false]
    intro key hkey
    have hcurrent := h key hkey
    cases key with
    | none => simp
    | some key => simp [show key.isCurrent l.cursor.place = true from hcurrent]
  have hall : l.keys.map (·.filter fun key => !!key.isCurrent l.cursor.place) = l.keys := by
    refine (List.map_congr_left fun key hkey => ?_).trans (List.map_id _)
    have hcurrent := h key hkey
    cases key with
    | none => rfl
    | some key => simp [Option.filter, show key.isCurrent l.cursor.place = true from hcurrent]
  unfold dropStaleKeys
  simp only [hnone, hall]
  rfl

/-- The colon of a field, which makes the word in front of it a key. -/
theorem reads_colon {word rest : List Char} {indent : Int} {place : Place}
    (hlength : word.length ≤ PossibleKey.maxLength) (hspace : spaceAhead rest)
    (hle : indent ≤ place.column) (tokens : List Token) (outer : List Int) : ∃ l' : Lexer,
    Reads (behindWord word place rest tokens indent outer) l' ∧ l'.Rests 0 ∧
      l'.keyAllowed = false ∧ l'.cursor.rest = rest ∧ place.column < l'.cursor.place.column ∧
      l'.tokens = fieldStart (String.ofList word) indent place.column tokens ∧
      l'.indent = place.column ∧ l'.outer = around indent place.column outer := by
  generalize hl : behindWord word place rest tokens indent outer = l
  have hrest : l.cursor.rest = ':' :: rest := by
    subst hl
    rfl
  have hskip : l.skipGap = l := skipGap_of_isTokenStart hrest (by decide)
  have hkeys : l.dropStaleKeys = .ok l := by
    subst hl
    refine dropStaleKeys_of_isCurrent ?_
    simp [behindWord, PossibleKey.isCurrent]
    omega
  have hunwind : l.unwind l.cursor.place.column = l := by
    subst hl
    exact unwind_of_le (Or.inr (by simp [behindWord]; omega))
  have hread : l.readToken ':' rest = l.readValue := by
    simp [readToken, documentMark, hspace]
  have hvalue : l.readValue = .ok {
      cursor := ⟨⟨place.index + word.length + 1, place.line, place.column + word.length + 1⟩, rest⟩
      tokens := fieldStart (String.ofList word) indent place.column tokens
      count := (fieldStart (String.ofList word) indent place.column tokens).length
      indent := place.column, outer := around indent place.column outer, keyAllowed := false } := by
    subst hl
    have hlater : tokens.length + 1 + 1 - tokens.length = 2 := by omega
    -- only the first name of a block opens it
    by_cases hlt : indent < place.column
    · simp [readValue, hlater, behindWord, possibleKey, Lexer.setKey, insertAt, Lexer.inFlow, nest,
        hlt, allowKey, Lexer.push, Lexer.skip, Cursor.skip, Cursor.skipFrom, Place.after, isBreak,
        fieldStart, around, pure, Except.pure]
    · simp [readValue, behindWord, possibleKey, Lexer.setKey, insertAt, Lexer.inFlow, nest, hlt,
        allowKey, Lexer.push, Lexer.skip, Cursor.skip, Cursor.skipFrom, Place.after, isBreak,
        fieldStart, around, pure, Except.pure]
      omega
  refine ⟨_, .token ((congrArg Lexer.dropStaleKeys hskip).trans hkeys) hunwind hrest
    (hread.trans hvalue) ?_, ⟨rfl, ?_, rfl⟩, rfl, rfl, ?_, rfl, rfl, rfl⟩
  · subst hl
    simp [behindWord]
  · simp
  · dsimp only
    omega

/-- The lexer stands behind the colon of a field at a column. -/
structure BehindColon (l : Lexer) (column : Nat) (rest : List Char) : Prop where
  rests : l.Rests 0
  allowed : l.keyAllowed = false
  cursor : l.cursor.rest = rest
  place : column < l.cursor.place.column
  indent : l.indent = column

/-- The name of a field and its colon. -/
theorem reads_field {name : FieldName} {column : Nat} {rest : List Char} {tokens : List Token}
    {indent : Int} {outer : List Int} (hrests : l.Rests 0)
    (hopens : l.Opens column (name.text.toList ++ ':' :: rest)) (hspace : spaceAhead rest)
    (hends : l.EndsTo column tokens indent outer) (hle : indent ≤ column) : ∃ l' : Lexer,
    Reads l l' ∧ l'.BehindColon column rest ∧
      l'.tokens = fieldStart name.text indent column tokens ∧
      l'.outer = around indent column outer := by
  obtain ⟨place, rfl, hname⟩ := reads_name hrests hopens hspace hends hle
  obtain ⟨l', hcolon, hrests', hallowed, hrest, hplace, htokens, hindent, houter⟩ :=
    reads_colon name.length_le hspace hle tokens outer
  rw [String.ofList_toList] at htokens
  exact ⟨l', hname.trans hcolon, ⟨hrests', hallowed, hrest, hplace, hindent⟩, htokens, houter⟩

/-! ## Layouts -/

end Lexer

mutual

/-- The characters of the flows in a layout are read as these. -/
def Layout.Spelled : Layout → Prop
  | .flow chars value => Lexer.Spells chars value.tokens
  | .block fields => fields.Spelled

/-- The characters of the flows in some fields are read as these. -/
def Block.Spelled : Block → Prop
  | .last _ value => value.Spelled
  | .field _ value rest => value.Spelled ∧ rest.Spelled

end

namespace Lexer

variable {l : Lexer}

theorem spaceAhead_text (value : Layout) (column : Nat) (rest : List Char) :
    spaceAhead (value.text column ++ rest) := by
  cases value <;> rfl

/-- Fields begin with a letter. -/
theorem exists_cons_text (fields : Block) (column : Nat) :
    ∃ c cs, fields.text column = c :: cs ∧ isTokenStart c := by
  have hname (name : FieldName) (rest : List Char) :
      ∃ c cs, name.text.toList ++ rest = c :: cs ∧ isTokenStart c := by
    obtain ⟨c, cs, h⟩ := List.exists_cons_of_ne_nil name.ne_nil
    have hc : c.isAlpha := List.all_eq_true.mp name.isAlpha c (by simp [h])
    exact ⟨c, cs ++ rest, by rw [h]; rfl, isTokenStart_of_isAlpha hc⟩
  cases fields with
  | last name value => exact hname name _
  | field name value rest =>
      rw [Block.text, List.append_assoc, List.append_assoc]
      exact hname name _

/-- When a mapping is all that is left of what is further in, it ends next. -/
theorem EndsTo.next {column indent : Int} {tokens : List Token} {outer : List Int}
    (h : l.EndsTo column tokens column (indent :: outer)) (hlt : indent < column) :
    l.EndsTo indent (.blockEnd :: tokens) indent outer := by
  obtain ⟨deeper, hindents, hdeeper, rfl⟩ := h
  refine ⟨deeper ++ [column], by simp [hindents], ?_, ?_⟩
  · intro d hd
    rcases List.mem_append.mp hd with hd | hd
    · exact Int.lt_trans hlt (hdeeper d hd)
    · exact List.mem_singleton.mp hd ▸ hlt
  · simp [List.replicate_succ]

theorem around_self (column : Int) (outer : List Int) : around column column outer = outer :=
  if_neg (Int.lt_irrefl _)

mutual

/-- The value of a field is read up to the end of its last line. -/
theorem reads_layout : ∀ (value : Layout), value.Spelled → ∀ {l : Lexer} {column : Nat}
    {rest : List Char}, l.BehindColon column (value.text column ++ '\n' :: rest) →
    ∃ l', Reads l l' ∧ l'.Rests 0 ∧ l'.cursor.rest = '\n' :: rest ∧
      l'.EndsTo column (value.tokens.reverse ++ l.tokens) column l.outer
  | .flow chars value, hspelled, l, column, rest, h => by
      obtain ⟨c, cs, hchars, hc⟩ := hspelled.starts
      have hnears : l.Nears (chars ++ '\n' :: rest) := by
        subst hchars
        refine nears_of_spaces 1 h.cursor hc (Or.inr ?_)
        have := h.place
        rw [h.indent]
        omega
      obtain ⟨l', hpasses⟩ := hspelled.reads h.rests h.allowed hnears
      refine ⟨l', hpasses.reads, hpasses.rests, hpasses.cursor, [], ?_, by simp, ?_⟩
      · rw [hpasses.indents, h.indent]
        rfl
      · rw [hpasses.tokens]
        rfl
  | .block fields, hspelled, l, column, rest, h => by
      obtain ⟨c, cs, hfields, hc⟩ := exists_cons_text fields (column + Layout.step)
      have hopens : l.Opens (column + Layout.step)
          (fields.text (column + Layout.step) ++ '\n' :: rest) := by
        have hrest := h.cursor
        rw [Layout.text, hfields] at hrest
        rw [hfields]
        exact opens_of_line h.rests (by simpa using hrest) hc
      have hlt : (column : Int) < (column + Layout.step : Nat) := by
        simp only [Layout.step]
        omega
      -- the block begins further to the right, so that it is to be closed before what is around it
      have hself : l.EndsTo (column + Layout.step : Nat) l.tokens column l.outer :=
        ⟨[], by rw [h.indent]; rfl, by simp, rfl⟩
      obtain ⟨l', hreads, hrests, hrest, hends⟩ :=
        reads_block fields hspelled h.rests hopens hself (Int.le_of_lt hlt)
      rw [if_pos hlt, around, if_pos hlt] at hends
      refine ⟨l', hreads, hrests, hrest, ?_⟩
      simpa [Layout.tokens] using hends.next hlt

/-- Fields are read up to the end of the last line. -/
theorem reads_block : ∀ (fields : Block), fields.Spelled → ∀ {l : Lexer} {column : Nat}
    {rest : List Char} {tokens : List Token} {indent : Int} {outer : List Int}, l.Rests 0 →
    l.Opens column (fields.text column ++ '\n' :: rest) →
    l.EndsTo column tokens indent outer → indent ≤ column →
    ∃ l', Reads l l' ∧ l'.Rests 0 ∧ l'.cursor.rest = '\n' :: rest ∧
      l'.EndsTo column (fields.tokens.reverse ++
        (if indent < column then .blockMappingStart :: tokens else tokens)) column
        (around indent column outer)
  | .last name value, hspelled, l, column, rest, tokens, indent, outer, hrests, hopens, hends,
      hle => by
      rw [Block.text, List.append_assoc] at hopens
      obtain ⟨l₁, hreads₁, hcolon, htokens₁, houter₁⟩ :=
        reads_field hrests hopens (spaceAhead_text value column _) hends hle
      obtain ⟨l₂, hreads₂, hrests₂, hrest₂, hends₂⟩ := reads_layout value hspelled hcolon
      refine ⟨l₂, hreads₁.trans hreads₂, hrests₂, hrest₂, ?_⟩
      rw [htokens₁, houter₁] at hends₂
      simpa [Block.tokens, fieldStart] using hends₂
  | .field name value more, hspelled, l, column, rest, tokens, indent, outer, hrests, hopens, hends,
      hle => by
      obtain ⟨hvalue, hmore⟩ := hspelled
      obtain ⟨c, cs, htext, hc⟩ := exists_cons_text more column
      rw [Block.text, List.append_assoc, List.append_assoc, List.append_assoc] at hopens
      obtain ⟨l₁, hreads₁, hcolon, htokens₁, houter₁⟩ :=
        reads_field hrests hopens (spaceAhead_text value column _) hends hle
      -- this field, up to the end of its value; the other ones follow in the same column
      obtain ⟨l₂, hreads₂, hrests₂, hrest₂, hends₂⟩ := reads_layout value hvalue hcolon
      have hopens₂ : l₂.Opens column (more.text column ++ '\n' :: rest) := by
        rw [htext] at hrest₂ ⊢
        exact opens_of_line hrests₂ (by simpa using hrest₂) hc
      obtain ⟨l₃, hreads₃, hrests₃, hrest₃, hends₃⟩ :=
        reads_block more hmore hrests₂ hopens₂ hends₂ (Int.le_refl _)
      refine ⟨l₃, (hreads₁.trans hreads₂).trans hreads₃, hrests₃, hrest₃, ?_⟩
      rw [if_neg (Int.lt_irrefl _), around_self, htokens₁, houter₁] at hends₃
      simpa [Block.tokens, fieldStart] using hends₃

end

/-- At the end of the text, all collections are ended. -/
theorem finish_of_endsTo {tokens : List Token} (hrests : l.Rests 0)
    (hends : l.EndsTo (-1) tokens (-1) []) :
    ∃ last, l.finish = .ok last ∧ last.tokens = .streamEnd :: tokens := by
  have hunwind := unwind_of_endsTo hends (Int.le_refl _) hrests
  have hunwound : Rests
      { l with tokens, count := tokens.length, indent := -1, outer := [] } 0 :=
    ⟨hrests.depth, hrests.unforced, rfl⟩
  refine ⟨({ l with tokens, count := tokens.length, indent := -1, outer := [] } : Lexer).setKey none
    |>.push .streamEnd, ?_, rfl⟩
  rw [finish, hunwind, hunwound.dropKey]
  rfl

/-- Behind the last line, the outermost mapping ends. -/
theorem readFrom_end {tokens : List Token} (hrests : l.Rests 0) (hrest : l.cursor.rest = ['\n'])
    (hends : l.EndsTo 0 tokens 0 [-1]) (steps : Nat) :
    readFrom (steps + 1) l = (.streamEnd :: .blockEnd :: tokens, none) := by
  have hopens : l.Opens 0 [] := by
    refine ⟨⟨l.cursor.place.index + 1, l.cursor.place.line + 1, 0⟩, rfl, ?_⟩
    rw [skipGap_eq (by simp [hrest]) (by rw [hrest, gapFrom_line, gapFrom])]
    simp [hrests.inFlow]
  obtain ⟨place, keys, next, next', -, hgap, hunwind, hrests', rfl⟩ :=
    hopens.next hrests hends (Int.le_refl 0)
  obtain ⟨last, hfinish, htokens⟩ :=
    finish_of_endsTo hrests' ⟨[0], rfl, by simp, rfl⟩
  rw [readFrom, hgap]
  simp only [hunwind, hfinish, htokens]
  rfl

end Lexer

/-- **The tokens of a text that is laid out as fields.** -/
theorem tokensOf_text (fields : Block) (hspelled : fields.Spelled) :
    tokensOf (fields.text 0 ++ ['\n']) = ((Layout.block fields).tokens ++ [.streamEnd], none) := by
  obtain ⟨c, cs, htext, hc⟩ := Lexer.exists_cons_text fields 0
  have hopens : Lexer.Opens { cursor := Cursor.start (fields.text 0 ++ ['\n']) } 0
      (fields.text 0 ++ ['\n']) := by
    rw [htext]
    exact Lexer.opens_start hc
  have hstart : Lexer.EndsTo { cursor := Cursor.start (fields.text 0 ++ ['\n']) } (0 : Nat) []
      (-1) [] := ⟨[], rfl, by simp, rfl⟩
  obtain ⟨l, ⟨n, hn, hread⟩, hrests, hrest, hends⟩ :=
    Lexer.reads_block fields hspelled ⟨rfl, by simp, rfl⟩ hopens hstart (by simp)
  -- there are steps left for the end of the text
  obtain ⟨steps, hsteps⟩ : ∃ steps, (fields.text 0 ++ ['\n']).length + 1 = n + (steps + 1) := by
    simp only [Cursor.start] at hn
    exact ⟨(fields.text 0 ++ ['\n']).length - n, by omega⟩
  unfold tokensOf
  rw [hsteps, hread, Lexer.readFrom_end hrests hrest hends]
  simp [Layout.tokens]

end ApiManifest.Yaml
