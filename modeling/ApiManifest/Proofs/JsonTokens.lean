import ApiManifest.Proofs.JsonWords
import ApiManifest.Proofs.Lines

/-!
# Tokens of JSON in YAML

What JSON writes on one line is filled into lines of YAML. A text in it may be read as another one,
or as none, if it has characters that end lines. But whatever is read, there is no tag among the
tokens, and nothing without quotes that looks like a date. So the kinds of all values are those that
JSON knows.

Reading may stop with an error at any text. So it is not followed up to where it comes, as for texts
that are read as they are: it is shown of every point that all that is read from there on has the
property, if it has from the next point on.
-/

namespace ApiManifest.Yaml

/-- The token gives no tag, and shows one of those that JSON has if it stands without quotes. -/
def Token.IsJson : Token → Prop
  | .tag _ => False
  | .scalar text isPlain => isPlain = true → (Tag.shownBy text).IsJson
  | _ => True

namespace Lexer

variable {l l' : Lexer} {depth : Nat}

/-- All tokens so far are those of JSON. -/
def IsJson (l : Lexer) : Prop := ∀ t ∈ l.tokens, t.IsJson

/-- All tokens will be those of JSON, wherever reading stops. -/
def Leads (l : Lexer) : Prop :=
  ∀ steps, l.cursor.rest.length < steps → ∀ t ∈ (readFrom steps l).1, t.IsJson

theorem Reads.leads (h : Reads l l') (hl' : l'.Leads) : l.Leads := by
  obtain ⟨n, hn, hread⟩ := h
  intro steps hsteps
  obtain ⟨more, rfl⟩ : ∃ more, steps = n + more := ⟨steps - n, by omega⟩
  rw [hread]
  exact hl' more (by omega)

theorem isJson_settled (hl : l.IsJson) : ∀ t ∈ l.settled, t.IsJson :=
  fun t ht => hl t (List.mem_of_mem_drop ht)

/-- One token that may be read or not. -/
theorem leads_of_readToken {next next' : Lexer} {c : Char} {rest : List Char} (hl : l.IsJson)
    (hgap : l.skipGap.dropStaleKeys = .ok next)
    (hunwind : next.unwind next.cursor.place.column = next') (hrest : next'.cursor.rest = c :: rest)
    (hread : ∀ l', next'.readToken c rest = .ok l' →
      l'.cursor.rest.length < l.cursor.rest.length ∧ l'.Leads) : l.Leads := by
  intro steps hsteps
  obtain ⟨more, rfl⟩ : ∃ more, steps = more + 1 := ⟨steps - 1, by omega⟩
  rw [readFrom, hgap]
  simp only [hunwind, hrest]
  cases h : next'.readToken c rest with
  | error e => exact isJson_settled hl
  | ok l' =>
      obtain ⟨hlength, hleads⟩ := hread l' h
      exact hleads more (by omega)

/-- The lexer went on, and as many brackets are open as before or after a value. -/
structure Stays (l l' : Lexer) (depth : Nat) : Prop where
  rests : l'.Rests depth
  json : l'.IsJson
  indents : l'.indent :: l'.outer = l.indent :: l.outer

theorem Stays.trans {l'' : Lexer} {depth' : Nat} (h : l.Stays l' depth)
    (h' : l'.Stays l'' depth') : l.Stays l'' depth' :=
  ⟨h'.rests, h'.json, h'.indents.trans h.indents⟩

theorem Passes.stays {allowed : Bool} {tokens : List Token} {rest : List Char}
    (h : Passes l l' depth allowed tokens rest) (hl : l.IsJson)
    (htokens : ∀ t ∈ tokens, t.IsJson) : l.Stays l' depth where
  rests := h.rests
  json t ht := by
    rw [h.tokens] at ht
    rcases List.mem_append.mp ht with ht | ht
    · exact htokens t (List.mem_reverse.mp ht)
    · exact hl t ht
  indents := h.indents

/-! ## Texts -/

/-- A quoted text. -/
theorem leads_quote {s : String} {rest : List Char} (hrests : l.Rests depth) (hl : l.IsJson)
    (hallowed : l.keyAllowed = true → 0 < depth) (hnears : l.Nears (Baseline.quote s ++ rest))
    (hnext : ∀ l', l.Stays l' depth → l'.cursor.rest = rest → l'.Leads) : l.Leads := by
  obtain ⟨next, hnext', hgap, hunwind, hrest, htokens, hindents, hallowed', hle⟩ :=
    hnears.next hrests
  obtain ⟨keys, hnote, hkeys⟩ := hnext'.noteKey (hallowed' ▸ hallowed)
  refine leads_of_readToken hl hgap hunwind hrest fun l' hread => ?_
  have hcursor : next.cursor = ⟨next.cursor.place, Baseline.quote s ++ rest⟩ :=
    congrArg (Cursor.mk next.cursor.place) hrest
  cases hquoted : Lexeme.quoted true next.cursor with
  | error e =>
      simp [readToken, documentMark, readNode, hnote, hquoted, bind, Except.bind] at hread
  | ok lexeme =>
      have hbehind : lexeme.cursor.rest = rest := Baseline.rest_of_quoted (hcursor ▸ hquoted)
      simp [readToken, documentMark, readNode, hnote, hquoted, bind, Except.bind, pure,
        Except.pure] at hread
      subst hread
      refine ⟨?_, hnext _ ⟨hkeys.push _ _ _, ?_, hindents⟩ hbehind⟩
      · have hquote : rest.length < (Baseline.quote s ++ rest).length := by
          simp [Baseline.quote]
          omega
        exact hbehind ▸ Nat.lt_of_lt_of_le hquote hle
      · intro t ht
        rcases List.mem_cons.mp ht with rfl | ht
        · intro hvalue
          cases hvalue
        · exact hl t (htokens ▸ ht)

/-! ## Words -/

theorem ne_of_isInner {c d : Char} (hc : isInner c) (hd : isInner d = false) : c ≠ d := by
  rintro rfl
  simp [hc] at hd

theorem isSpace_of_isInner {c : Char} (hc : isInner c) : isSpace c = false := by
  simp only [isSpace, isBreak, Bool.or_eq_false_iff, beq_eq_false_iff_ne]
  refine ⟨⟨?_, ?_⟩, ⟨⟨⟨?_, ?_⟩, ?_⟩, ?_⟩, ?_⟩ <;> exact ne_of_isInner hc (by decide)

theorem endsPlain_of_isInner {c : Char} (hc : isInner c) (flow : Bool) (rest : List Char) :
    endsPlain flow c rest = false := by
  have hne {d : Char} (hd : isInner d = false) : c ≠ d := ne_of_isInner hc hd
  simp [endsPlain, isSpace_of_isInner hc, isFlowIndicator, hne (d := ':') rfl, hne (d := '?') rfl,
    hne (d := ',') rfl, hne (d := '[') rfl, hne (d := ']') rfl, hne (d := '\x7b') rfl,
    hne (d := '\x7d') rfl]

/-- A word is read character by character. -/
theorem exists_plainFrom {cs : List Char} (hcs : cs.all isInner) (flow : Bool) (indent : Int)
    (read rest : List Char) (p : Place) : ∃ p',
    plainFrom flow indent .words read p (cs ++ rest)
      = plainFrom flow indent .words (cs.reverse ++ read) p' rest := by
  induction cs generalizing read p with
  | nil => exact ⟨p, rfl⟩
  | cons c cs ih =>
      simp only [List.all_cons, Bool.and_eq_true] at hcs
      have hspace := isSpace_of_isInner hcs.1
      simp only [isSpace, Bool.or_eq_false_iff, beq_eq_false_iff_ne] at hspace
      obtain ⟨p', h⟩ := ih hcs.2 (c :: read) (p.after c (cs ++ rest))
      refine ⟨p', ?_⟩
      rw [List.cons_append, plainFrom]
      simp only [hspace, joinsNext_of_not_isBreak hspace.2, endsPlain_of_isInner hcs.1,
        Bool.false_eq_true, if_false]
      rw [h]
      simp

/-- A character that parts or closes what stands in brackets. -/
def closesItem (c : Char) : Prop := c = ',' ∨ c = ']' ∨ c = '\x7d'

/-- In brackets, a word ends with what parts or closes. -/
theorem exists_plain_flow {cs : List Char} (hcs : cs.all isInner) {c : Char} (hc : closesItem c)
    (indent : Int) (rest : List Char) (p : Place) : ∃ p',
    Lexeme.plain true indent ⟨p, cs ++ c :: rest⟩
      = { text := String.ofList cs, cursor := ⟨p', c :: rest⟩ } := by
  obtain ⟨p', h⟩ := exists_plainFrom hcs true indent [] (c :: rest) p
  refine ⟨p', h.trans ?_⟩
  rcases hc with rfl | rfl | rfl <;>
  simp [plainFrom, joinsNext, isBreak, endsPlain, isSpace, isFlowIndicator, textOf]

/-! Outside of brackets, the reader of a word looks at the next line before it stops. -/

/-- A line begins with these characters, behind spaces. -/
structure IsLine (column : Nat) (chars : List Char) : Prop where
  starts : (column = 0 ∧ chars = []) ∨ ∃ c cs, chars = c :: cs ∧ isTokenStart c
  unmarked : documentMark (List.replicate column ' ' ++ chars) = false

theorem plainFrom_spaces (count : Nat) (indent : Int) (first : Char) (more read cs : List Char)
    (p : Place) :
    plainFrom false indent (.breaks first more) read p (List.replicate count ' ' ++ cs)
      = plainFrom false indent (.breaks first more) read ⟨p.index + count, p.line, p.column + count⟩
        cs := by
  induction count generalizing p with
  | zero => rfl
  | succ count ih =>
      rw [List.replicate_succ, List.cons_append, plainFrom]
      simp only [true_or, if_true, Place.after, isBreak]
      simp [ih, Nat.add_assoc, Nat.add_comm 1 count]

/-- A word that ends with its line, when the next one is not indented any further. -/
theorem exists_plain_line {cs : List Char} (hcs : cs.all isInner) {column : Nat}
    {chars : List Char} (hline : IsLine column chars) {indent : Int} (hindent : column < indent)
    (p : Place) : ∃ place : Place, place.column = column ∧
    Lexeme.plain false indent ⟨p, cs ++ '\n' :: (List.replicate column ' ' ++ chars)⟩
      = { text := String.ofList cs, cursor := ⟨place, chars⟩, brokeLine := true } := by
  obtain ⟨p', h⟩ := exists_plainFrom hcs false indent []
    ('\n' :: (List.replicate column ' ' ++ chars)) p
  have hbreak : plainFrom false indent .words (cs.reverse ++ []) p'
      ('\n' :: (List.replicate column ' ' ++ chars)) =
      plainFrom false indent (.breaks '\n' []) (cs.reverse ++ []) ⟨p'.index + 1, p'.line + 1, 0⟩
        (List.replicate column ' ' ++ chars) := by
    rw [plainFrom]
    simp [joinsNext, isBreak, breakValue, Place.after, hline.unmarked]
  rw [plainFrom_spaces] at hbreak
  refine ⟨⟨p'.index + 1 + column, p'.line + 1, 0 + column⟩, Nat.zero_add _, ?_⟩
  rw [Lexeme.plain, h, hbreak]
  rcases hline.starts with ⟨-, rfl⟩ | ⟨c, rest, rfl, hc⟩
  · simp [plainFrom, textOf]
  · simp only [isTokenStart, Bool.and_eq_true, Bool.not_eq_true', bne_iff_ne] at hc
    have hjoins := joinsNext_of_not_isBreak hc.1.1.1 rest
    simp [plainFrom, hc, hjoins, hindent, textOf]

theorem exists_isTokenStart {cs : List Char} (h : IsWord cs) :
    ∃ c more, cs = c :: more ∧ isTokenStart c := by
  obtain ⟨c, more, rfl, -⟩ := h.starts
  have hinner : isInner c := List.all_eq_true.mp h.inner c List.mem_cons_self
  have hspace := isSpace_of_isInner hinner
  simp only [isSpace, Bool.or_eq_false_iff, beq_eq_false_iff_ne] at hspace
  have hhash : c ≠ '#' := ne_of_isInner hinner rfl
  have hmark : c ≠ '\uFEFF' := ne_of_isInner hinner rfl
  exact ⟨c, more, rfl, by simp [isTokenStart, hspace, hhash, hmark]⟩

theorem documentMark_of_ne {c : Char} (hdash : c ≠ '-') (hdot : c ≠ '.') (rest : List Char) :
    documentMark (c :: rest) = false := by
  unfold documentMark
  split <;> simp_all

theorem beginsPlain_of_isAlphanum {c : Char} (hc : c.isAlphanum) (flow : Bool)
    (rest : List Char) : beginsPlain flow c rest := by
  have hsign : "-?:,[]\x7b\x7d#&*!|>'\"%@`".toList.contains c = false := by
    rw [List.contains_eq_any_beq, List.any_eq_false]
    have hsigns : ("-?:,[]\x7b\x7d#&*!|>'\"%@`".toList.all fun d => !d.isAlphanum) = true := by
      decide
    intro d hd heq
    rw [beq_iff_eq.mp heq] at hc
    simpa [hc] using List.all_eq_true.mp hsigns d hd
  rw [beginsPlain, isSpace_of_isInner (by simp [isInner, hc]), hsign]
  rfl

/-- A number or a name is read as a plain scalar. -/
theorem readToken_of_isWord {cs : List Char} (h : IsWord cs) {c : Char} {more : List Char}
    (hcs : cs = c :: more) (l : Lexer) (rest : List Char) :
    l.readToken c (more ++ rest) = l.readPlain := by
  obtain ⟨c', more', hcs', hstart⟩ := h.starts
  cases hcs.symm.trans hcs'
  have hinner : isInner c := List.all_eq_true.mp h.inner c (hcs ▸ List.mem_cons_self)
  have hne {d : Char} (hd : isInner d = false) : c ≠ d := ne_of_isInner hinner hd
  obtain ⟨hmark, hbegins, hblock⟩ : documentMark (c :: (more ++ rest)) = false ∧
      beginsPlain l.inFlow c (more ++ rest) = true ∧
      ¬ (c = '-' ∧ spaceAhead (more ++ rest) = true) := by
    -- the word begins with a letter or a digit, or with a minus and then one of these
    rcases hstart with halnum | ⟨rfl, hnext⟩
    · have hne {d : Char} (hd : d.isAlphanum = false) : c ≠ d := by
        rintro rfl
        simp [halnum] at hd
      exact ⟨documentMark_of_ne (hne rfl) (hne rfl) _, beginsPlain_of_isAlphanum halnum _ _,
        fun h => hne rfl h.1⟩
    · obtain ⟨d, ds, rfl⟩ : ∃ d ds, more = d :: ds := by
        cases more with
        | nil => simp at hnext
        | cons d ds => exact ⟨d, ds, rfl⟩
      have hd : d.isAlphanum = true := by simpa using hnext
      have hspace : spaceAhead (d :: ds ++ rest) = false :=
        isSpace_of_isInner (by simp [isInner, hd])
      have hdash : d ≠ '-' := by
        rintro rfl
        simp at hd
      refine ⟨?_, ?_, fun hboth => Bool.false_ne_true (hspace.symm.trans hboth.2)⟩
      · unfold documentMark
        split <;> simp_all
      · rw [beginsPlain, hspace]
        simp
  unfold Lexer.readToken
  simp [hne (d := '%') rfl, hne (d := '[') rfl, hne (d := ']') rfl, hne (d := '\x7b') rfl,
    hne (d := '\x7d') rfl, hne (d := ',') rfl, hne (d := '?') rfl,
    hne (d := ':') rfl, hne (d := '*') rfl, hne (d := '&') rfl, hne (d := '!') rfl,
    hne (d := '|') rfl, hne (d := '>') rfl, hne (d := '\'') rfl, hne (d := '"') rfl,
    hmark, hbegins, hblock]

/-! ## What ends a value -/

/-- How a value ends, and where the lexer is then: in brackets with what parts or closes, and else
with its line, before the next one. That is not indented any further. -/
inductive Closes (indent : Int) : (depth : Nat) → List Char → (Lexer → Prop) → Prop
  | item {depth : Nat} {c : Char} {rest : List Char} : closesItem c →
      Closes indent (depth + 1) (c :: rest) (·.cursor.rest = c :: rest)
  | line {column : Nat} {chars : List Char} : IsLine column chars → column ≤ indent →
      Closes indent 0 ('\n' :: (List.replicate column ' ' ++ chars)) (·.Opens column chars)

theorem opens_of_isLine {column : Nat} {chars : List Char} (h : l.Rests 0)
    (hline : IsLine column chars)
    (hrest : l.cursor.rest = '\n' :: (List.replicate column ' ' ++ chars)) :
    l.Opens column chars := by
  rcases hline.starts with ⟨rfl, rfl⟩ | ⟨c, cs, rfl, hc⟩
  · refine ⟨⟨l.cursor.place.index + 1, l.cursor.place.line + 1, 0⟩, rfl, ?_⟩
    rw [skipGap_eq (by simp [hrest])
      (by rw [hrest, gapFrom_line, List.replicate_zero, List.nil_append, gapFrom])]
    simp [h.inFlow]
  · exact opens_of_line h hrest hc

theorem Closes.reached {indent : Int} {rest : List Char} {reached : Lexer → Prop}
    (h : Closes indent depth rest reached) (hrests : l.Rests depth) (hrest : l.cursor.rest = rest) :
    reached l := by
  cases h with
  | item _ => exact hrest
  | line hline _ => exact opens_of_isLine hrests hline hrest

/-- All tokens are those of JSON up to the end of some characters, in brackets or on a line. -/
structure Writes (chars : List Char) : Prop where
  starts : ∃ c cs, chars = c :: cs ∧ isTokenStart c
  leads : ∀ {l : Lexer} {depth : Nat} {rest : List Char} {reached : Lexer → Prop}, l.Rests depth →
    l.IsJson → (l.keyAllowed = true → 0 < depth) → l.Nears (chars ++ rest) →
    Closes l.indent depth rest reached → (∀ l', l.Stays l' depth → reached l' → l'.Leads) → l.Leads

theorem opens_of_plain {l : Lexer} {place : Place} {chars : List Char} {column : Nat}
    (hline : IsLine column chars) (hcolumn : place.column = column)
    (hcursor : l.cursor = ⟨place, chars⟩) (hallowed : l.keyAllowed = true) :
    l.Opens column chars := by
  refine ⟨place, hcolumn, ?_⟩
  have hself : ({ l with cursor := ⟨place, chars⟩, keyAllowed := true } : Lexer) = l := by
    rw [← hcursor, ← hallowed]
  rw [hself]
  rcases hline.starts with ⟨-, rfl⟩ | ⟨c, cs, rfl, hc⟩
  · rw [skipGap_eq (by simp [hcursor]) (by rw [hcursor, gapFrom])]
    rw [← hcursor]
    simp
  · exact skipGap_of_isTokenStart (by rw [hcursor]) hc

/-- Where the reader of a word stops. -/
theorem plain_reached {cs : List Char} (hcs : cs.all isInner) {indent : Int} {rest : List Char}
    {reached : Lexer → Prop} (hcloses : Closes indent depth rest reached) (p : Place) : ∃ lexeme,
    Lexeme.plain (decide (0 < depth)) (indent + 1) ⟨p, cs ++ rest⟩ = lexeme ∧
      lexeme.text = String.ofList cs ∧ lexeme.cursor.rest.length ≤ rest.length ∧
      ∀ l : Lexer, l.cursor = lexeme.cursor → l.keyAllowed = lexeme.brokeLine → reached l := by
  refine ⟨_, rfl, ?_⟩
  cases hcloses with
  | item hclose =>
      obtain ⟨p', hplain⟩ := exists_plain_flow hcs hclose (indent + 1) _ p
      rw [decide_eq_true (Nat.succ_pos _), hplain]
      exact ⟨rfl, Nat.le_refl _, fun l hcursor _ => congrArg Cursor.rest hcursor⟩
  | @line column chars hline hle =>
      have hdeeper : (column : Int) < indent + 1 := by omega
      obtain ⟨place, hcolumn, hplain⟩ := exists_plain_line hcs hline hdeeper p
      rw [decide_eq_false (Nat.lt_irrefl 0), hplain]
      refine ⟨rfl, ?_, fun l hcursor hallowed => opens_of_plain hline hcolumn hcursor hallowed⟩
      simp
      omega

/-- A number or a name. -/
theorem writes_word {cs : List Char} (h : IsWord cs) : Writes cs where
  starts := exists_isTokenStart h
  leads := by
    intro l depth rest reached hrests hl hallowed hnears hcloses hnext
    obtain ⟨next, hnext', hgap, hunwind, hrest, htokens, hindents, hallowed', hle⟩ :=
      hnears.next hrests
    obtain ⟨keys, hnote, hkeys⟩ := hnext'.noteKey (hallowed' ▸ hallowed)
    obtain ⟨c, more, hcs, -⟩ := exists_isTokenStart h
    have hread : next.readToken c (more ++ rest) = next.readPlain :=
      readToken_of_isWord h hcs next rest
    have hindent : next.indent = l.indent := (List.cons.inj hindents).1
    obtain ⟨lexeme, hplain, htext, hlength, hreached⟩ :=
      plain_reached h.inner hcloses next.cursor.place
    have hcursor : (⟨next.cursor.place, cs ++ rest⟩ : Cursor) = next.cursor :=
      (congrArg (Cursor.mk next.cursor.place) hrest).symm
    rw [hcursor, ← hindent, ← hnext'.inFlow] at hplain
    -- reading the word can only come to a plain scalar, and the scanner goes on behind it
    refine leads_of_readToken hl hgap hunwind (hrest.trans (congrArg (· ++ rest) hcs))
      fun l' hl' => ?_
    replace hl' : next.readPlain = .ok l' := hread ▸ hl'
    rw [readPlain, hnote] at hl'
    cases Except.ok.inj hl'
    have hflow : ({ next with keys } : Lexer).inFlow = next.inFlow := by
      rw [hkeys.inFlow, hnext'.inFlow]
    dsimp only
    rw [hflow, hplain]
    refine ⟨?_, hnext _ ⟨hkeys.push _ _ _, ?_, hindents⟩ (hreached _ rfl rfl)⟩
    · have hword : rest.length < (cs ++ rest).length := by
        rw [hcs, List.length_append, List.length_cons]
        omega
      exact Nat.lt_of_le_of_lt hlength (Nat.lt_of_lt_of_le hword hle)
    · intro t ht
      rcases List.mem_cons.mp ht with rfl | ht
      · exact fun _ => htext ▸ h.isJson
      · exact hl t (htokens ▸ ht)

/-- A text. -/
theorem writes_quote (s : String) : Writes (Baseline.quote s) where
  starts := ⟨'"', _, rfl, by decide⟩
  leads hrests hl hallowed hnears hcloses hnext :=
    leads_quote hrests hl hallowed hnears fun l' hstays hrest =>
      hnext l' hstays (hcloses.reached hstays.rests hrest)

/-! ## Brackets and braces -/

/-- In brackets, a value or a field leads up to what parts it from the next one, or closes. -/
structure WritesItem (chars : List Char) : Prop where
  starts : ∃ c cs, chars = c :: cs ∧ isTokenStart c
  leads : ∀ {l : Lexer} {depth : Nat} {c : Char} {rest : List Char}, l.Rests (depth + 1) →
    l.IsJson → l.Nears (chars ++ c :: rest) → closesItem c →
    (∀ l', l.Stays l' (depth + 1) → l'.cursor.rest = c :: rest → l'.Leads) → l.Leads

theorem Writes.item {chars : List Char} (h : Writes chars) : WritesItem chars where
  starts := h.starts
  leads hrests hl hnears hc hnext :=
    h.leads hrests hl (fun _ => Nat.succ_pos _) hnears (.item hc) hnext

theorem Rests.insertAt (h : l.Rests depth) (number : Nat) (token : Token) :
    (l.insertAt number token).Rests depth := by
  refine ⟨h.depth, h.unforced, ?_⟩
  simp [Lexer.insertAt, h.count]
  omega

theorem IsJson.insertAt (hl : l.IsJson) (number : Nat) {token : Token} (h : token.IsJson) :
    (l.insertAt number token).IsJson := by
  intro t ht
  rcases List.mem_append.mp ht with ht | ht
  · exact hl t (List.mem_of_mem_take ht)
  · rcases List.mem_cons.mp ht with rfl | ht
    · exact h
    · exact hl t (List.mem_of_mem_drop ht)

/-- The colon of a field in braces. -/
theorem exists_reads_flowColon {rest : List Char} (hrests : l.Rests (depth + 1)) (hl : l.IsJson)
    (hrest : l.cursor.rest = ':' :: rest) :
    ∃ l', Reads l l' ∧ l.Stays l' (depth + 1) ∧ l'.cursor.rest = rest := by
  obtain ⟨next, hnext, hgap, hunwind, hrest', htokens, hindents, -, hle⟩ :=
    (hrests.nears 0 hrest (by decide)).next hrests
  have hflow : next.inFlow = true := by simp [hnext.inFlow]
  have hread : next.readToken ':' rest = next.readValue := by simp [readToken, documentMark, hflow]
  have hjson : next.IsJson := fun t ht => hl t (htokens ▸ ht)
  have hsteps {l' : Lexer} (hvalue : next.readValue = .ok l') (hcursor : l'.cursor.rest = rest) :
      Reads l l' := by
    refine .token hgap hunwind hrest' (hread.trans hvalue) ?_
    rw [hcursor]
    exact hle
  -- without a possible key, only the value is marked; otherwise the key is marked as well
  cases hkey : next.possibleKey with
  | none =>
      have hvalue : next.readValue
          = .ok ((((next.allowKey false).setKey none).push .value).skip 1) := by
        have hdrop : (next.allowKey false).dropKey = .ok ((next.allowKey false).setKey none) :=
          (⟨hnext.depth, hnext.unforced, hnext.count⟩ :
            (next.allowKey false).Rests (depth + 1)).dropKey
        rw [readValue, hkey]
        simp [beginBlock, hflow, hdrop, bind, Except.bind, pure, Except.pure]
      refine ⟨_, hsteps hvalue ?_, ⟨?_, ?_, hindents⟩, ?_⟩
      · exact rest_skip_one hrest'
      · exact (hnext.setKey none rfl).push .value _ false
      · exact List.forall_mem_cons.mpr ⟨trivial, hjson⟩
      · exact rest_skip_one hrest'
  | some key =>
      have hnoted := (hnext.setKey none rfl).insertAt key.number .key
      have hvalue : next.readValue = .ok
          (((((next.setKey none).insertAt key.number .key).allowKey false).push
            .value).skip 1) := by
        rw [readValue, hkey]
        simp [hnoted.inFlow, pure, Except.pure]
      refine ⟨_, hsteps hvalue ?_, ⟨?_, ?_, hindents⟩, ?_⟩
      · exact rest_skip_one hrest'
      · exact hnoted.push .value _ false
      · have hkey : ((next.setKey none).insertAt key.number .key).IsJson :=
          IsJson.insertAt (l := next.setKey none) hjson key.number trivial
        exact List.forall_mem_cons.mpr ⟨trivial, hkey⟩
      · exact rest_skip_one hrest'

/-- Items behind each other, with a comma and a space between them. -/
def parted : List (List Char) → List Char
  | [] => []
  | item :: rest => item ++ rest.flatMap (',' :: ' ' :: ·)

/-- Brackets or braces, with the tokens that they are read as. -/
structure Enclosing where
  opening : Char
  closing : Char
  start : Token
  stop : Token
  starts : isTokenStart opening
  reads_opening : ∀ (l : Lexer) (rest : List Char), l.readToken opening rest = l.openFlow start
  reads_closing : ∀ (l : Lexer) (rest : List Char), l.readToken closing rest = l.closeFlow stop
  closes : closesItem closing
  isJson : start.IsJson ∧ stop.IsJson

def brackets : Enclosing where
  opening := '['
  closing := ']'
  start := .flowSequenceStart
  stop := .flowSequenceEnd
  starts := by decide
  reads_opening _ _ := by simp [readToken, documentMark]
  reads_closing _ _ := by simp [readToken, documentMark]
  closes := .inr (.inl rfl)
  isJson := ⟨trivial, trivial⟩

def braces : Enclosing where
  opening := '\x7b'
  closing := '\x7d'
  start := .flowMappingStart
  stop := .flowMappingEnd
  starts := by decide
  reads_opening _ _ := by simp [readToken, documentMark]
  reads_closing _ _ := by simp [readToken, documentMark]
  closes := .inr (.inr rfl)
  isJson := ⟨trivial, trivial⟩

section

variable (e : Enclosing) {items : List (List Char)} {rest : List Char}

/-- An item, behind spaces and in front of others and of what closes them all. -/
theorem leads_item {item : List Char} (hitem : WritesItem item) (count : Nat)
    (hrests : l.Rests (depth + 1)) (hl : l.IsJson)
    (hrest : l.cursor.rest = List.replicate count ' ' ++
      (item ++ (items.flatMap (',' :: ' ' :: ·) ++ e.closing :: rest)))
    (hnext : ∀ l', l.Stays l' (depth + 1) →
      l'.cursor.rest = items.flatMap (',' :: ' ' :: ·) ++ e.closing :: rest → l'.Leads) :
    l.Leads := by
  obtain ⟨c, cs, hchars, hc⟩ := hitem.starts
  obtain ⟨d, more, hmore, hd⟩ : ∃ d more,
      items.flatMap (',' :: ' ' :: ·) ++ e.closing :: rest = d :: more ∧ closesItem d := by
    cases items with
    | nil => exact ⟨_, _, rfl, e.closes⟩
    | cons _ _ => exact ⟨_, _, rfl, .inl rfl⟩
  have hnears : l.Nears (item ++ d :: more) := by
    rw [hmore, hchars] at hrest
    rw [hchars]
    exact hrests.nears count hrest hc
  exact hitem.leads hrests hl hnears hd fun l' hstays hcursor =>
    hnext l' hstays (hcursor.trans hmore.symm)

/-- Behind an item: the others, and what closes them all. -/
theorem leads_more (hitems : ∀ item ∈ items, WritesItem item) (hrests : l.Rests (depth + 1))
    (hl : l.IsJson) (hrest : l.cursor.rest = items.flatMap (',' :: ' ' :: ·) ++ e.closing :: rest)
    (hnext : ∀ l', l.Stays l' depth → l'.cursor.rest = rest → l'.Leads) : l.Leads := by
  induction items generalizing l with
  | nil =>
      have hclosing : isTokenStart e.closing := by
        rcases e.closes with h | h | h <;> rw [h] <;> decide
      obtain ⟨l', h⟩ := passes_close e.stop (e.reads_closing · rest) hrests
        (hrests.nears 0 hrest hclosing)
      exact h.reads.leads (hnext l' (h.stays hl (by simp [e.isJson])) h.cursor)
  | cons item items ih =>
      obtain ⟨hitem, hitems⟩ := List.forall_mem_cons.mp hitems
      rw [List.flatMap_cons, List.append_assoc] at hrest
      obtain ⟨l₁, h₁⟩ := passes_comma hrests (hrests.nears 0 hrest (by decide))
      have hstays₁ := h₁.stays hl (by simp [Token.IsJson])
      refine h₁.reads.leads (leads_item e hitem 1 h₁.rests hstays₁.json h₁.cursor
        fun l₂ h₂ hrest₂ => ?_)
      refine ih hitems h₂.rests h₂.json hrest₂ fun l' hstays hrest' => ?_
      exact hnext l' ((hstays₁.trans h₂).trans hstays) hrest'

/-- All items in brackets, and the brackets. -/
theorem writes_enclosed (hitems : ∀ item ∈ items, WritesItem item) :
    Writes (e.opening :: parted items ++ [e.closing]) where
  starts := ⟨e.opening, _, rfl, e.starts⟩
  leads := by
    intro l depth rest reached hrests hl hallowed hnears hcloses hnext
    rw [List.append_assoc, List.singleton_append] at hnears
    obtain ⟨l₁, h₁⟩ := passes_open e.start (e.reads_opening · _) hrests hallowed hnears
    have hstays₁ := h₁.stays hl (by simp [e.isJson])
    have hlast (l' : Lexer) (hstays : l₁.Stays l' depth) (hrest : l'.cursor.rest = rest) :
        l'.Leads := hnext l' (hstays₁.trans hstays) (hcloses.reached hstays.rests hrest)
    refine h₁.reads.leads ?_
    have hcursor : l₁.cursor.rest = parted items ++ e.closing :: rest := h₁.cursor
    cases items with
    | nil => exact leads_more e hitems h₁.rests hstays₁.json hcursor hlast
    | cons item items =>
        obtain ⟨hitem, hitems⟩ := List.forall_mem_cons.mp hitems
        rw [parted, List.append_assoc] at hcursor
        refine leads_item e hitem 0 h₁.rests hstays₁.json hcursor fun l₂ h₂ hrest₂ => ?_
        exact leads_more e hitems h₂.rests h₂.json hrest₂ fun l' hstays =>
          hlast l' (h₂.trans hstays)

end

/-- A field in braces: its name, a colon and a value. -/
theorem Writes.field {chars : List Char} (h : Writes chars) (name : String) :
    WritesItem (Baseline.quote name ++ ':' :: ' ' :: chars) where
  starts := ⟨'"', _, rfl, by decide⟩
  leads := by
    intro l depth c rest hrests hl hnears hc hnext
    rw [List.append_assoc] at hnears
    refine leads_quote hrests hl (fun _ => Nat.succ_pos _) hnears fun l₁ h₁ hrest₁ => ?_
    obtain ⟨l₂, hreads, h₂, hrest₂⟩ := exists_reads_flowColon h₁.rests h₁.json hrest₁
    obtain ⟨d, cs, hchars, hd⟩ := h.starts
    have hnears₂ : l₂.Nears (chars ++ c :: rest) := by
      rw [hchars] at hrest₂ ⊢
      exact h₂.rests.nears 1 hrest₂ hd
    refine hreads.leads (h.item.leads h₂.rests h₂.json hnears₂ hc fun l' hstays hrest' => ?_)
    exact hnext l' ((h₁.trans h₂).trans hstays) hrest'

/-- What JSON writes on one line, as it is filled into a text of YAML. -/
inductive Inline : List Char → Prop
  | quote (s : String) : Inline (Baseline.quote s)
  | word {cs : List Char} : IsWord cs → Inline cs
  | items {items : List (List Char)} : (∀ item ∈ items, Inline item) →
      Inline ('[' :: parted items ++ [']'])
  | fields {fields : List (String × List Char)} : (∀ field ∈ fields, Inline field.2) →
      Inline ('\x7b' :: parted (fields.map fun (name, chars) =>
        Baseline.quote name ++ ':' :: ' ' :: chars) ++ ['\x7d'])

/-- **What JSON writes on one line leads to tokens of JSON.** -/
theorem Inline.writes {chars : List Char} (h : Inline chars) : Writes chars := by
  induction h with
  | quote s => exact writes_quote s
  | word h => exact writes_word h
  | items _ ih => exact writes_enclosed brackets fun item hitem => (ih item hitem).item
  | fields _ ih =>
      refine writes_enclosed braces fun item hitem => ?_
      obtain ⟨field, hfield, rfl⟩ := List.mem_map.mp hitem
      exact (ih field hfield).field field.1

/-! ## Lines -/

/-- A line: a field with what stands behind its colon, if not only the lines below it do. -/
structure Line where
  column : Nat
  name : FieldName
  value : Option (List Char)

namespace Line

/-- What stands behind the colon. -/
def behind (line : Line) : List Char := line.value.elim [] (' ' :: ·)

/-- The column of the first one of some lines. Behind the last one the text ends. -/
def firstColumn : List Line → Nat
  | [] => 0
  | line :: _ => line.column

/-- Lines from the name of the first one on. -/
def text : List Line → List Char
  | [] => []
  | line :: rest => line.name.text.toList ++ ':' ::
      (line.behind ++ '\n' :: (List.replicate (firstColumn rest) ' ' ++ text rest))

/-- All values are what JSON writes, and only lines without a value have others below them. -/
def Filled : List Line → Prop
  | [] => True
  | line :: rest => (∀ chars, line.value = some chars → Inline chars ∧
      firstColumn rest ≤ line.column) ∧ Filled rest

theorem isLine (lines : List Line) : IsLine (firstColumn lines) (text lines) := by
  cases lines with
  | nil => exact ⟨.inl ⟨rfl, rfl⟩, rfl⟩
  | cons line rest =>
      obtain ⟨c, cs, hname⟩ := List.exists_cons_of_ne_nil line.name.ne_nil
      have hc : c.isAlpha := List.all_eq_true.mp line.name.isAlpha c (by simp [hname])
      refine ⟨.inr ⟨c, _, by rw [text, hname]; rfl, isTokenStart_of_isAlpha hc⟩, ?_⟩
      rw [text, hname, firstColumn]
      cases line.column with
      | zero => exact documentMark_of_isAlpha hc _
      | succ column => rfl

end Line

theorem isJson_unwind (hl : l.IsJson) (column : Int) : (l.unwind column).IsJson := by
  have hfrom (outer : List Int) : ∀ l : Lexer, l.IsJson → (unwindFrom column l outer).IsJson := by
    induction outer with
    | nil => exact fun l hl => hl
    | cons previous outer ih =>
        intro l hl
        rw [unwindFrom]
        split
        · exact ih _ (List.forall_mem_cons.mpr ⟨trivial, hl⟩)
        · exact hl
  unfold unwind
  split
  · exact hl
  · exact hfrom _ l hl

theorem isJson_finish {last : Lexer} (hl : l.IsJson) (h : l.finish = .ok last) :
    last.IsJson := by
  unfold finish dropKey at h
  split at h
  · cases h
  · cases h
    exact List.forall_mem_cons.mpr ⟨trivial, isJson_unwind hl (-1)⟩

/-- At a column, the innermost mapping that goes on there is known. -/
theorem exists_endsTo (hl : l.IsJson) (hbase : -1 ∈ l.indent :: l.outer) (column : Nat) :
    ∃ tokens indent outer, l.EndsTo column tokens indent outer ∧ indent ≤ column ∧
      (∀ t ∈ tokens, t.IsJson) ∧ -1 ∈ indent :: outer := by
  have hsplit (columns : List Int) (hbase : -1 ∈ columns) :
      ∃ (deeper : List Int) (indent : Int) (outer : List Int),
        columns = deeper ++ indent :: outer ∧ (∀ d ∈ deeper, column < d) ∧ indent ≤ column ∧
          -1 ∈ indent :: outer := by
    induction columns with
    | nil => cases hbase
    | cons d rest ih =>
        by_cases hle : d ≤ column
        · exact ⟨[], d, rest, rfl, by simp, hle, hbase⟩
        · have hrest : -1 ∈ rest := (List.mem_cons.mp hbase).resolve_left (by omega)
          obtain ⟨deeper, indent, outer, rfl, hdeeper, hindent, hmem⟩ := ih hrest
          exact ⟨d :: deeper, indent, outer, rfl,
            List.forall_mem_cons.mpr ⟨by omega, hdeeper⟩, hindent, hmem⟩
  obtain ⟨deeper, indent, outer, hcolumns, hdeeper, hle, hmem⟩ := hsplit _ hbase
  refine ⟨_, indent, outer, ⟨deeper, hcolumns, hdeeper, rfl⟩, hle, ?_, hmem⟩
  exact List.forall_mem_append.mpr ⟨fun t ht => List.eq_of_mem_replicate ht ▸ trivial, hl⟩

/-- At its end, a text has been read. -/
theorem leads_end (hrests : l.Rests 0) (hl : l.IsJson) (hbase : -1 ∈ l.indent :: l.outer)
    (hopens : l.Opens 0 []) : l.Leads := by
  obtain ⟨tokens, indent, outer, hends, hle, htokens, -⟩ := exists_endsTo hl hbase 0
  obtain ⟨place, keys, next, next', -, hgap, hunwind, -, hnext⟩ := hopens.next hrests hends hle
  have hnext' : next'.IsJson := hnext ▸ htokens
  intro steps hsteps
  obtain ⟨more, rfl⟩ : ∃ more, steps = more + 1 := ⟨steps - 1, by omega⟩
  rw [readFrom, hgap]
  simp only [hunwind, hnext]
  split
  · next last hlast => exact isJson_finish (hnext ▸ hnext') hlast
  · exact isJson_settled hl

/-- **Lines that are filled with what JSON writes lead to tokens of JSON.** -/
theorem leads_lines {lines : List Line} (hlines : Line.Filled lines) (hrests : l.Rests 0)
    (hl : l.IsJson) (hbase : -1 ∈ l.indent :: l.outer)
    (hopens : l.Opens (Line.firstColumn lines) (Line.text lines)) : l.Leads := by
  induction lines generalizing l with
  | nil => exact leads_end hrests hl hbase hopens
  | cons line rest ih =>
      obtain ⟨hvalue, hrest⟩ := hlines
      obtain ⟨tokens, indent, outer, hends, hle, htokens, hbase'⟩ :=
        exists_endsTo hl hbase line.column
      have hspace : spaceAhead (line.behind ++
          '\n' :: (List.replicate (Line.firstColumn rest) ' ' ++ Line.text rest)) := by
        unfold Line.behind
        cases line.value <;> rfl
      -- the name and its colon, then the value if the line has one, then the other lines
      obtain ⟨l₁, hreads, hcolon, htokens₁, houter⟩ := reads_field hrests hopens hspace hends hle
      have hl₁ : l₁.IsJson := by
        intro t ht
        have hname : (Token.scalar line.name.text true).IsJson :=
          fun _ => line.name.shownBy.symm ▸ trivial
        rw [htokens₁, fieldStart] at ht
        split at ht <;> simp only [List.mem_cons] at ht
        · rcases ht with rfl | rfl | rfl | rfl | ht
          all_goals first | trivial | exact hname | exact htokens t ht
        · rcases ht with rfl | rfl | rfl | ht
          all_goals first | trivial | exact hname | exact htokens t ht
      have hbase₁ : -1 ∈ l₁.indent :: l₁.outer := by
        rw [houter, around]
        refine List.mem_cons_of_mem _ ?_
        split
        · exact hbase'
        · exact (List.mem_cons.mp hbase').resolve_left (by omega)
      refine hreads.leads ?_
      have hcursor := hcolon.cursor
      cases hline : line.value with
      | none =>
          rw [Line.behind, hline] at hcursor
          exact ih hrest hcolon.rests hl₁ hbase₁
            (opens_of_isLine hcolon.rests (Line.isLine rest) hcursor)
      | some chars =>
          obtain ⟨hinline, hcolumn⟩ := hvalue chars hline
          have hwrites := hinline.writes
          rw [Line.behind, hline] at hcursor
          obtain ⟨c, cs, hchars, hc⟩ := hwrites.starts
          have hnears : l₁.Nears (chars ++
              '\n' :: (List.replicate (Line.firstColumn rest) ' ' ++ Line.text rest)) := by
            have hplace := hcolon.place
            rw [hchars] at hcursor ⊢
            refine nears_of_spaces 1 hcursor hc (.inr ?_)
            rw [hcolon.indent]
            omega
          refine hwrites.leads hcolon.rests hl₁ (by simp [hcolon.allowed]) hnears
            (.line (Line.isLine rest) ?_) fun l₂ hstays hopens₂ => ?_
          · rw [hcolon.indent]
            exact_mod_cast hcolumn
          · exact ih hrest hstays.rests hstays.json (hstays.indents ▸ hbase₁) hopens₂

/-- **All tokens of such a text are those of JSON.** -/
theorem isJson_tokensOf {line : Line} {rest : List Line} (hlines : Line.Filled (line :: rest))
    (hcolumn : line.column = 0) : ∀ t ∈ (tokensOf (Line.text (line :: rest))).1, t.IsJson := by
  have hopens : Lexer.Opens { cursor := Cursor.start (Line.text (line :: rest)) }
      (Line.firstColumn (line :: rest)) (Line.text (line :: rest)) := by
    obtain ⟨c, cs, hname⟩ := List.exists_cons_of_ne_nil line.name.ne_nil
    have hc : c.isAlpha := List.all_eq_true.mp line.name.isAlpha c (by simp [hname])
    rw [Line.firstColumn, hcolumn, Line.text, hname]
    exact opens_start (isTokenStart_of_isAlpha hc)
  have hleads := leads_lines hlines ⟨rfl, by simp, rfl⟩ (by simp [IsJson])
    List.mem_cons_self hopens
  intro t ht
  exact hleads _ (Nat.lt_succ_self _) t (List.mem_reverse.mp ht)

end Lexer
end ApiManifest.Yaml
