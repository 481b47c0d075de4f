import ApiManifest.Proofs.Layout
import ApiManifest.Proofs.Quotes

/-!
# Tokens of flows

How the lexer goes through a text that is laid out. Most of its state is there for keys: a word may
turn out to be one when its colon comes, and then a token is put in front of it. Inside of a flow
none is due. That, with the number of brackets that are open, is all that has to be known of the
lexer between two tokens of a flow.

Whether some characters are read as a flow does not depend on where the flow stands. So a text
between quotes, or a list of what is read as flows, is treated once for all its places.
-/

namespace ApiManifest.Yaml

namespace Lexer

variable {l l' l'' : Lexer}

/-! ## Reading on -/

/-- Reading comes from one point of a text to another one, by no more tokens than there are
characters between them. -/
def Reads (l l' : Lexer) : Prop :=
  ∃ n, n + l'.cursor.rest.length ≤ l.cursor.rest.length ∧
    ∀ steps, readFrom (n + steps) l = readFrom steps l'

theorem Reads.trans (h : Reads l l') (h' : Reads l' l'') : Reads l l'' := by
  obtain ⟨n, hn, hread⟩ := h
  obtain ⟨m, hm, hread'⟩ := h'
  exact ⟨n + m, by omega, fun steps => by rw [Nat.add_assoc, hread, hread']⟩

theorem length_gapFrom (comment ended : Bool) (p : Place) (cs : List Char) :
    (gapFrom comment ended p cs).2.rest.length ≤ cs.length := by
  induction cs generalizing comment ended p with
  | nil => simp [gapFrom]
  | cons c rest ih =>
      unfold gapFrom
      have := ih comment ended (p.after c rest)
      have := ih false true (p.after c rest)
      have := ih true ended (p.after c rest)
      dsimp only
      split
      · simp only [List.length_cons]; omega
      split
      · simp only [List.length_cons]; omega
      split
      · simp only [List.length_cons]; omega
      split
      · simp only [List.length_cons]; omega
      · simp

theorem length_skipFrom (p : Place) (count : Nat) (cs : List Char) :
    (Cursor.skipFrom p count cs).rest.length ≤ cs.length := by
  induction count generalizing p cs with
  | zero => simp [Cursor.skipFrom]
  | succ count ih =>
      cases cs with
      | nil => simp [Cursor.skipFrom]
      | cons c rest =>
          have := ih (p.after c rest) rest
          simp only [Cursor.skipFrom, List.length_cons]
          omega

theorem length_skipGap (l : Lexer) : l.skipGap.cursor.rest.length ≤ l.cursor.rest.length := by
  unfold skipGap
  dsimp only
  split
  · exact Nat.le_trans (length_gapFrom _ _ _ _) (length_skipFrom _ _ _)
  · exact length_gapFrom _ _ _ _

/-- One token. -/
theorem Reads.token {next next' : Lexer} {c : Char} {rest : List Char}
    (hgap : l.skipGap.dropStaleKeys = .ok next)
    (hunwind : next.unwind next.cursor.place.column = next') (hrest : next'.cursor.rest = c :: rest)
    (hread : next'.readToken c rest = .ok l')
    (hlength : l'.cursor.rest.length < l.cursor.rest.length) : Reads l l' := by
  refine ⟨1, by omega, fun steps => ?_⟩
  rw [Nat.add_comm, readFrom, hgap]
  simp only [hunwind, hrest, hread]

/-! ## Keys that are not due -/

/-- So many brackets are open, and nothing has to turn out to be a key. -/
structure Rests (l : Lexer) (depth : Nat) : Prop where
  depth : l.keys.length = depth + 1
  unforced : ∀ key ∈ l.keys, key.all (!·.required)
  count : l.count = l.tokens.length

namespace Rests

variable {depth : Nat}

theorem inFlow (h : l.Rests depth) : l.inFlow = decide (0 < depth) := by
  simp [Lexer.inFlow, h.depth]

/-- Where the lexer is does not matter, and neither does what can still become a key. -/
theorem setKey (h : l.Rests depth) (key : Option PossibleKey) (hkey : key.all (!·.required)) :
    (l.setKey key).Rests depth := by
  refine ⟨?_, ?_, h.count⟩
  · have := h.depth
    simp only [Lexer.setKey, List.length_cons, List.length_drop]
    omega
  · intro other hother
    rcases List.mem_cons.mp hother with rfl | hmem
    · exact hkey
    · exact h.unforced other (List.mem_of_mem_drop hmem)

theorem dropKey (h : l.Rests depth) : l.dropKey = .ok (l.setKey none) := by
  unfold Lexer.dropKey possibleKey
  cases hkeys : l.keys with
  | nil => simp
  | cons key rest =>
      have := h.unforced key (by simp [hkeys])
      cases key <;> simp_all

theorem dropStaleKeys (h : l.Rests depth) : ∃ keys,
    l.dropStaleKeys = .ok { l with keys } ∧ ({ l with keys } : Lexer).Rests depth := by
  have hnone : (l.keys.any (·.any fun key => !key.isCurrent l.cursor.place && key.required))
      = false := by
    rw [List.any_eq_false]
    intro key hkey
    have := h.unforced key hkey
    cases key <;> simp_all
  refine ⟨l.keys.map (·.filter fun key => !!key.isCurrent l.cursor.place), ?_, ?_⟩
  · unfold Lexer.dropStaleKeys
    simp only [hnone]
    rfl
  · refine ⟨by simpa using h.depth, ?_, h.count⟩
    intro kept hkept
    obtain ⟨key, hkey, rfl⟩ := List.mem_map.mp hkept
    have := h.unforced key hkey
    cases key <;> simp_all [Option.filter]
    split <;> simp_all

/-- Outside of brackets no key may begin. Either way none is due afterwards. -/
theorem noteKey (h : l.Rests depth) (hallowed : l.keyAllowed = true → 0 < depth) : ∃ keys,
    l.noteKey = .ok { l with keys } ∧ ({ l with keys } : Lexer).Rests depth := by
  unfold Lexer.noteKey
  by_cases hkey : l.keyAllowed = true
  · have hflow : l.inFlow = true := by simp [h.inFlow, hallowed hkey]
    rw [if_pos hkey, h.dropKey]
    refine ⟨_, rfl, (h.setKey none rfl).setKey _ ?_⟩
    simp [hflow]
  · rw [if_neg hkey]
    exact ⟨l.keys, rfl, h⟩

end Rests

/-! ## What stands between tokens -/

/-- A character that a token can begin with. -/
def isTokenStart (c : Char) : Bool := !isBreak c && c != ' ' && c != '#' && c != '\uFEFF'

theorem gapFrom_start {c : Char} (hc : isTokenStart c) (ended : Bool) (p : Place)
    (rest : List Char) : gapFrom false ended p (c :: rest) = (ended, ⟨p, c :: rest⟩) := by
  simp only [isTokenStart, Bool.and_eq_true, Bool.not_eq_true', bne_iff_ne] at hc
  have hj : joinsNext c rest = false := by
    cases hr : c == '\r'
    · simp [joinsNext, hr]
    · simp_all [isBreak]
  unfold gapFrom
  simp [hj, hc]

theorem gapFrom_spaces (count : Nat) (ended : Bool) (p : Place) (cs : List Char) :
    gapFrom false ended p (List.replicate count ' ' ++ cs)
      = gapFrom false ended ⟨p.index + count, p.line, p.column + count⟩ cs := by
  induction count generalizing p with
  | zero => rfl
  | succ count ih =>
      rw [List.replicate_succ, List.cons_append, gapFrom]
      simp only [joinsNext, isBreak, Place.after]
      simp [ih, Nat.add_assoc, Nat.add_comm 1 count]

theorem gapFrom_line (ended : Bool) (p : Place) (cs : List Char) :
    gapFrom false ended p ('\n' :: cs) = gapFrom false true ⟨p.index + 1, p.line + 1, 0⟩ cs := by
  rw [gapFrom]
  simp [joinsNext, isBreak, Place.after]

theorem skipGap_eq {ended : Bool} {c : Cursor} (hmark : l.cursor.rest.head? ≠ some '\uFEFF')
    (hgap : gapFrom false false l.cursor.place l.cursor.rest = (ended, c)) :
    l.skipGap = { l with cursor := c, keyAllowed := l.keyAllowed || (ended && !l.inFlow) } := by
  unfold skipGap
  have hmark' : (l.cursor.place.index == 0 && l.cursor.rest.head? == some '\uFEFF') = false := by
    simp [hmark]
  simp only [hmark', Bool.false_eq_true, if_false, hgap]

theorem skipGap_of_isTokenStart {c : Char} {cs : List Char} (h : l.cursor.rest = c :: cs)
    (hc : isTokenStart c) : l.skipGap = l := by
  rw [skipGap_eq _ (by rw [h, gapFrom_start hc false])]
  · have hcursor : (⟨l.cursor.place, c :: cs⟩ : Cursor) = l.cursor := by rw [← h]
    simp [hcursor]
  · simp only [isTokenStart, Bool.and_eq_true, bne_iff_ne] at hc
    simp [h, hc]

/-- The next token has these characters, and stands within the innermost collection. -/
def Nears (l : Lexer) (chars : List Char) : Prop :=
  ∃ place, l.skipGap = { l with cursor := ⟨place, chars⟩ } ∧
    (l.inFlow = true ∨ l.indent ≤ place.column)

theorem nears_of_spaces (count : Nat) {c : Char} {cs : List Char}
    (hrest : l.cursor.rest = List.replicate count ' ' ++ c :: cs) (hc : isTokenStart c)
    (hplace : l.inFlow = true ∨ l.indent ≤ l.cursor.place.column + count) : l.Nears (c :: cs) := by
  refine ⟨⟨l.cursor.place.index + count, l.cursor.place.line, l.cursor.place.column + count⟩, ?_,
    hplace.imp_right fun h => by exact_mod_cast h⟩
  rw [skipGap_eq _ (by rw [hrest, gapFrom_spaces, gapFrom_start hc])]
  · simp
  · rw [hrest]
    simp only [isTokenStart, Bool.and_eq_true, bne_iff_ne] at hc
    cases count <;> simp [List.replicate_succ, hc]

/-- The next token has these characters, at a column of a line of its own, where a key can begin. -/
def Opens (l : Lexer) (column : Nat) (chars : List Char) : Prop :=
  ∃ place : Place, place.column = column ∧
    l.skipGap = { l with cursor := ⟨place, chars⟩, keyAllowed := true }

theorem opens_of_line {column : Nat} {c : Char} {cs : List Char} (h : l.Rests 0)
    (hrest : l.cursor.rest = '\n' :: List.replicate column ' ' ++ c :: cs) (hc : isTokenStart c) :
    l.Opens column (c :: cs) := by
  refine ⟨⟨l.cursor.place.index + 1 + column, l.cursor.place.line + 1, column⟩, rfl, ?_⟩
  rw [skipGap_eq (by simp [hrest])
    (by rw [hrest, List.cons_append, gapFrom_line, gapFrom_spaces, gapFrom_start hc])]
  simp [h.inFlow]

theorem opens_start {c : Char} {cs : List Char} (hc : isTokenStart c) :
    Opens { cursor := Cursor.start (c :: cs) } 0 (c :: cs) := by
  refine ⟨{}, rfl, skipGap_eq ?_ (gapFrom_start hc false _ _)⟩
  simp only [isTokenStart, Bool.and_eq_true, bne_iff_ne] at hc
  simp [Cursor.start, hc]

/-! ## Tokens of flows -/

/-- Reading passes some tokens, from which nothing is left open but `depth` brackets. -/
structure Passes (l l' : Lexer) (depth : Nat) (allowed : Bool) (tokens : List Token)
    (rest : List Char) : Prop where
  reads : Reads l l'
  rests : l'.Rests depth
  allowed : l'.keyAllowed = allowed
  cursor : l'.cursor.rest = rest
  tokens : l'.tokens = tokens.reverse ++ l.tokens
  indents : l'.indent :: l'.outer = l.indent :: l.outer

theorem Passes.trans {depth depth' : Nat} {allowed allowed' : Bool} {tokens tokens' : List Token}
    {rest rest' : List Char} (h : Passes l l' depth allowed tokens rest)
    (h' : Passes l' l'' depth' allowed' tokens' rest') :
    Passes l l'' depth' allowed' (tokens ++ tokens') rest' where
  reads := h.reads.trans h'.reads
  rests := h'.rests
  allowed := h'.allowed
  cursor := h'.cursor
  tokens := by rw [h'.tokens, h.tokens, List.reverse_append, List.append_assoc]
  indents := h'.indents.trans h.indents

theorem unwind_of_le {column : Int} (h : l.inFlow = true ∨ l.indent ≤ column) :
    l.unwind column = l := by
  unfold unwind
  split
  · rfl
  · next hflow =>
      have hle := h.resolve_left hflow
      cases l.outer with
      | nil => rfl
      | cons => rw [unwindFrom, if_neg (by omega)]

/-- Up to the next token, nothing changes but the keys that have become too far away. -/
theorem Nears.next {depth : Nat} {chars : List Char} (h : l.Nears chars) (hrests : l.Rests depth) :
    ∃ next : Lexer, next.Rests depth ∧ l.skipGap.dropStaleKeys = .ok next ∧
      next.unwind next.cursor.place.column = next ∧ next.cursor.rest = chars ∧
      next.tokens = l.tokens ∧ next.indent :: next.outer = l.indent :: l.outer ∧
      next.keyAllowed = l.keyAllowed ∧ chars.length ≤ l.cursor.rest.length := by
  obtain ⟨place, hskip, hplace⟩ := h
  have hlength := length_skipGap l
  rw [hskip] at hlength
  obtain ⟨keys, hkeys, hnext⟩ : ∃ keys,
      ({ l with cursor := ⟨place, chars⟩ } : Lexer).dropStaleKeys
        = .ok { l with cursor := ⟨place, chars⟩, keys } ∧
      ({ l with cursor := ⟨place, chars⟩, keys } : Lexer).Rests depth :=
    Rests.dropStaleKeys ⟨hrests.depth, hrests.unforced, hrests.count⟩
  refine ⟨_, hnext, hskip ▸ hkeys, unwind_of_le ?_, rfl, rfl, rfl, rfl, hlength⟩
  refine hplace.imp_left fun hflow => ?_
  rwa [hnext.inFlow, ← hrests.inFlow]

/-- Some characters are read as a flow, wherever it may stand: behind the colon of a field or in
brackets. -/
structure Spells (chars : List Char) (tokens : List Token) : Prop where
  starts : ∃ c cs, chars = c :: cs ∧ isTokenStart c
  reads : ∀ {l : Lexer} {depth : Nat} {rest : List Char}, l.Rests depth →
    l.keyAllowed = decide (0 < depth) → l.Nears (chars ++ rest) →
    ∃ l', Passes l l' depth false tokens rest

/-- A token is added, and its characters are passed. -/
theorem Rests.push {depth : Nat} (h : l.Rests depth) (token : Token) (cursor : Cursor)
    (allowed : Bool) :
    ({ l.push token with cursor, keyAllowed := allowed } : Lexer).Rests depth :=
  ⟨h.depth, h.unforced, by simp [Lexer.push, h.count]⟩

/-- One token, and what it leaves. -/
theorem passes_of_readToken {depth depth' : Nat} {allowed : Bool} {c : Char} {cs rest : List Char}
    {token : Token} (hrests : l.Rests depth) (hnears : l.Nears (c :: cs))
    (hlength : rest.length ≤ cs.length)
    (hread : ∀ next : Lexer, next.Rests depth → next.keyAllowed = l.keyAllowed →
      next.cursor.rest = c :: cs → ∃ l', next.readToken c cs = .ok l' ∧ l'.Rests depth' ∧
        l'.keyAllowed = allowed ∧ l'.cursor.rest = rest ∧ l'.tokens = token :: next.tokens ∧
        l'.indent :: l'.outer = next.indent :: next.outer) :
    ∃ l', Passes l l' depth' allowed [token] rest := by
  obtain ⟨next, hnext, hgap, hunwind, hrest, htokens, hindents, hallowed, hle⟩ := hnears.next hrests
  obtain ⟨l', hl', hrests', hallowed', hrest', htokens', hindents'⟩ :=
    hread next hnext hallowed hrest
  refine ⟨l', .token hgap hunwind hrest hl' ?_, hrests', hallowed', hrest', ?_,
    hindents'.trans hindents⟩
  · rw [hrest']
    exact Nat.lt_of_lt_of_le (Nat.lt_succ_of_le hlength) hle
  · rw [htokens', htokens]
    rfl

/-- A text between quotes is read as a flow. -/
theorem spells_quote {s : String} (hs : s.toList.all Baseline.isPlain) :
    Spells (Baseline.quote s) [.scalar s false] where
  starts := ⟨'"', _, rfl, by decide⟩
  reads := by
    intro l depth rest hrests hallowed hnears
    refine passes_of_readToken hrests hnears (by simp; omega) fun next hnext hallowed' hrest => ?_
    obtain ⟨keys, hnote, hkeys⟩ := hnext.noteKey (by simp [hallowed', hallowed])
    obtain ⟨place, hquoted⟩ := Baseline.quoted_quote hs rest next.cursor.place
    have hcursor : next.cursor = ⟨next.cursor.place, Baseline.quote s ++ rest⟩ :=
      congrArg (Cursor.mk next.cursor.place) hrest
    rw [← hcursor] at hquoted
    refine ⟨_, ?_, hkeys.push (.scalar s false) ⟨place, rest⟩ false, rfl, rfl, rfl, rfl⟩
    simp [readToken, documentMark, readNode, hnote, hquoted, bind, Except.bind, pure, Except.pure]

theorem openFlow_eq {noted : Lexer} (h : l.noteKey = .ok noted) (token : Token) :
    l.openFlow token
      = .ok (({ noted with keys := none :: noted.keys, keyAllowed := true }.push token).skip 1)
    := by
  rw [openFlow, h]
  rfl

theorem closeFlow_eq {dropped : Lexer} (hflow : l.inFlow) (h : l.dropKey = .ok dropped)
    (token : Token) : l.closeFlow token
      = .ok (({ dropped with keys := dropped.keys.drop 1, keyAllowed := false }.push token).skip 1)
    := by
  rw [closeFlow, if_pos hflow, h]
  rfl

theorem readFlowEntry_eq {dropped : Lexer} (h : (l.allowKey true).dropKey = .ok dropped) :
    l.readFlowEntry = .ok ((dropped.push .flowEntry).skip 1) := by
  rw [readFlowEntry, h]
  rfl

theorem rest_skip_one {c : Char} {cs : List Char} (h : l.cursor.rest = c :: cs) :
    (l.skip 1).cursor.rest = cs := by
  simp [Lexer.skip, Cursor.skip, h, Cursor.skipFrom]

/-- An opening bracket or brace. -/
theorem passes_open (token : Token) {depth : Nat} {c : Char} {rest : List Char}
    (htoken : ∀ next : Lexer, next.readToken c rest = next.openFlow token)
    (hrests : l.Rests depth) (hallowed : l.keyAllowed = true → 0 < depth)
    (hnears : l.Nears (c :: rest)) : ∃ l', Passes l l' (depth + 1) true [token] rest := by
  refine passes_of_readToken hrests hnears (Nat.le_refl _) fun next hnext hallowed' hrest => ?_
  obtain ⟨keys, hnote, hkeys⟩ := hnext.noteKey (hallowed' ▸ hallowed)
  have hopened : ({ next with keys := none :: keys } : Lexer).Rests (depth + 1) := by
    refine ⟨congrArg (· + 1) hkeys.depth, ?_, hkeys.count⟩
    exact List.forall_mem_cons.mpr ⟨rfl, hkeys.unforced⟩
  exact ⟨_, (htoken next).trans (openFlow_eq hnote token), hopened.push token _ true, rfl,
    rest_skip_one hrest, rfl, rfl⟩

/-- A closing bracket or brace. -/
theorem passes_close (token : Token) {depth : Nat} {c : Char} {rest : List Char}
    (htoken : ∀ next : Lexer, next.readToken c rest = next.closeFlow token)
    (hrests : l.Rests (depth + 1)) (hnears : l.Nears (c :: rest)) :
    ∃ l', Passes l l' depth false [token] rest := by
  refine passes_of_readToken hrests hnears (Nat.le_refl _) fun next hnext _ hrest => ?_
  have hflow : next.inFlow = true := by simp [hnext.inFlow]
  have hclosed : ({ next with keys := next.keys.drop 1 } : Lexer).Rests depth :=
    ⟨by simp [hnext.depth], fun key hkey => hnext.unforced key (List.mem_of_mem_drop hkey),
      hnext.count⟩
  exact ⟨_, (htoken next).trans (closeFlow_eq hflow hnext.dropKey token),
    hclosed.push token _ false, rfl, rest_skip_one hrest, rfl, rfl⟩

/-- A comma. -/
theorem passes_comma {depth : Nat} {rest : List Char} (hrests : l.Rests depth)
    (hnears : l.Nears (',' :: rest)) : ∃ l', Passes l l' depth true [.flowEntry] rest := by
  refine passes_of_readToken hrests hnears (Nat.le_refl _) fun next hnext _ hrest => ?_
  have hnext' : (next.allowKey true).Rests depth := ⟨hnext.depth, hnext.unforced, hnext.count⟩
  have hread : next.readToken ',' rest = next.readFlowEntry := by simp [readToken, documentMark]
  exact ⟨_, hread.trans (readFlowEntry_eq hnext'.dropKey),
    (hnext'.setKey none rfl).push .flowEntry _ true, rfl, rest_skip_one hrest, rfl, rfl⟩

/-- In brackets, it does not matter where the next token stands. -/
theorem Rests.nears {depth : Nat} (h : l.Rests (depth + 1)) (count : Nat) {c : Char}
    {cs : List Char} (hrest : l.cursor.rest = List.replicate count ' ' ++ c :: cs)
    (hc : isTokenStart c) :
    l.Nears (c :: cs) :=
  nears_of_spaces count hrest hc (Or.inl (by simp [h.inFlow]))

/-- The items of a list and what closes it. A comma and a space part two items. -/
def itemChars (first : Bool) : List (List Char) → List Char
  | [] => [']']
  | item :: rest => (if first then [] else [',', ' ']) ++ item ++ itemChars false rest

theorem passes_items {items : List (List Char × Flow)}
    (hitems : ∀ item ∈ items, Spells item.1 item.2.tokens) {depth : Nat} {first : Bool}
    {rest : List Char}
    (hrests : l.Rests (depth + 1)) (hallowed : first → l.keyAllowed = true)
    (hrest : l.cursor.rest = itemChars first (items.map Prod.fst) ++ rest) :
    ∃ l', Passes l l' depth false (Flow.itemTokens first (items.map Prod.snd)) rest := by
  induction items generalizing l first with
  | nil =>
      exact passes_close .flowSequenceEnd (fun _ => by simp [readToken, documentMark]) hrests
        (hrests.nears 0 hrest (by decide))
  | cons item items ih =>
      obtain ⟨hitem, hitems⟩ := List.forall_mem_cons.mp hitems
      obtain ⟨c, cs, hchars, hc⟩ := hitem.starts
      -- an item from its first character on, and all the others
      have hreads {l : Lexer} (count : Nat) (hrests : l.Rests (depth + 1))
          (hallowed : l.keyAllowed = true) (hrest : l.cursor.rest = List.replicate count ' ' ++
            (item.1 ++ (itemChars false (items.map Prod.fst) ++ rest))) :
          ∃ l', Passes l l' depth false
            (item.2.tokens ++ Flow.itemTokens false (items.map Prod.snd)) rest := by
        have hnears : l.Nears (item.1 ++ (itemChars false (items.map Prod.fst) ++ rest)) := by
          rw [hchars] at hrest ⊢
          exact hrests.nears count hrest hc
        obtain ⟨l₁, h₁⟩ := hitem.reads hrests (by simp [hallowed]) hnears
        obtain ⟨l₂, h₂⟩ := ih hitems h₁.rests (by simp) h₁.cursor
        exact ⟨l₂, h₁.trans h₂⟩
      cases first with
      | true =>
          refine hreads 0 hrests (hallowed rfl) ?_
          simpa [itemChars] using hrest
      | false =>
          obtain ⟨l₁, h₁⟩ := passes_comma hrests (hrests.nears 0 hrest (by decide))
          obtain ⟨l₂, h₂⟩ := hreads 1 h₁.rests h₁.allowed
            (by rw [h₁.cursor]; simp)
          exact ⟨l₂, by simpa [Flow.itemTokens] using h₁.trans h₂⟩

/-- A list in brackets is read as a flow. -/
theorem spells_items {items : List (List Char × Flow)}
    (hitems : ∀ item ∈ items, Spells item.1 item.2.tokens) :
    Spells ('[' :: itemChars true (items.map Prod.fst)) (Flow.items (items.map Prod.snd)).tokens
    where
  starts := ⟨'[', _, rfl, by decide⟩
  reads := by
    intro l depth rest hrests hallowed hnears
    obtain ⟨l₁, h₁⟩ := passes_open .flowSequenceStart
      (fun _ => by simp [readToken, documentMark]) hrests (by simp [hallowed]) hnears
    obtain ⟨l₂, h₂⟩ := passes_items hitems h₁.rests (fun _ => h₁.allowed) h₁.cursor
    exact ⟨l₂, h₁.trans h₂⟩

/-- Empty braces are read as a flow. -/
theorem spells_braces : Spells ['\x7b', '\x7d'] (Flow.braces []).tokens where
  starts := ⟨'\x7b', _, rfl, by decide⟩
  reads := by
    intro l depth rest hrests hallowed hnears
    obtain ⟨l₁, h₁⟩ := passes_open .flowMappingStart
      (fun _ => by simp [readToken, documentMark]) hrests (by simp [hallowed]) hnears
    obtain ⟨l₂, h₂⟩ := passes_close .flowMappingEnd
      (fun _ => by simp [readToken, documentMark]) h₁.rests
      (h₁.rests.nears 0 h₁.cursor (by decide))
    exact ⟨l₂, h₁.trans h₂⟩

end Lexer
end ApiManifest.Yaml
