import TextPipeline.Proofs.Outcome
import TextPipeline.Proofs.Text.Encoding
import TextPipeline.Proofs.Token.Spelling
import TextPipeline.Token.Lexer

/-!
A program text read byte by byte. Blanks, marks, quotes and words are told by single bytes, and a
character is decoded only where the content of a literal is taken or a character is refused. Inside
a character none can be decoded, and a reader that tries has gone astray (`charAt_inside`). This one
never does: it finds the tokens and the errors that the lexer finds (`lexBytes_utf8`).
-/

namespace TextPipeline.Token

open Item Wasm

/-- Why reading bytes ends early: with an error of the lexer, or because no character starts at
the byte where one is to be read. -/
inductive Halt
  | failed (e : Error)
  | astray
  deriving DecidableEq, Repr

namespace Bytewise

/-! ### The reader -/

def stop {α : Type} (line : Nat) (fault : LexicalFault) : Except Halt α :=
  .error (.failed (.lexical line fault))

/-- The character that starts at the first of these bytes. -/
def charAt (bytes : Bytes) : Except Halt Char :=
  match bytes.toByteArray.utf8DecodeChar? 0 with
  | some c => .ok c
  | none => .error .astray

/-- No character starts inside another. -/
lemma charAt_inside {c : Char} {before after rest : Bytes} {b : UInt8}
    (h : String.utf8EncodeChar c = before ++ b :: after) (hne : before ≠ []) :
    charAt (b :: after ++ rest) = .error .astray := by
  unfold charAt
  split
  · -- the byte would have to be the first of a character
    rename_i hsome
    have hfirst := ByteArray.isUTF8FirstByte_of_isSome_utf8DecodeChar?
      (Option.isSome_of_eq_some hsome)
    have hlt : before.length < (String.utf8EncodeChar c).length := by
      rw [h, List.length_append]
      exact Nat.lt_add_of_pos_right (Nat.succ_pos _)
    have hstart : ((String.utf8EncodeChar c)[before.length]).IsUTF8FirstByte := by
      simpa [h] using hfirst
    have hzero := UInt8.isUTF8FirstByte_getElem_utf8EncodeChar.mp hstart
    exact absurd (List.length_eq_zero_iff.mp hzero) hne
  · rfl

/-- The text of a stretch that starts and ends between characters. -/
def slice (bytes : Bytes) : Except Halt String :=
  match decodeUtf8? bytes with
  | some s => .ok s
  | none => .error .astray

/-- The next character of a literal, of which only the first byte is passed then. -/
def literalChar (line : Nat) (bytes : Bytes) : Except Halt Char := do
  let c ← charAt bytes
  if Text.isPlain c then return c else stop line .notPlain

def literalBody (line : Nat) (quote : Char) : Bytes → Except Halt (List Char × Bytes)
  | [] => stop line .openLiteral
  | b :: bs =>
    if Char.ofUInt8 b = quote then .ok ([], bs)
    else if Char.ofUInt8 b = '\n' then stop line .openLiteral
    else do
      let c ← literalChar line (b :: bs)
      let (body, rest) ← literalBody line quote bs
      return (c :: body, rest)

def blockBody (line : Nat) : Bytes → Except Halt (List Char × Nat × Bytes)
  | [] => stop line .openBlock
  | b :: bs =>
    if [0x22, 0x22, 0x22] <+: b :: bs then .ok ([], line, (b :: bs).drop 3)
    else do
      let c ← literalChar line (b :: bs)
      let (body, after, rest) ← blockBody (passed c line) bs
      return (c :: body, after, rest)

/-- The token of the literal or block that starts with this quote, the line after it, and what
follows it. -/
def quoted (line : Nat) (quote : Char) (bs : Bytes) : Except Halt (Option Token × Nat × Bytes) :=
  if quote = '"' ∧ [0x22, 0x22] <+: bs then do
    let (body, after, rest) ← blockBody line (bs.drop 2)
    return (some ⟨.literal, String.ofList body, line⟩, after, rest)
  else do
    let (body, rest) ← literalBody line quote bs
    return (some ⟨.literal, String.ofList body, line⟩, line, rest)

def inWord (b : UInt8) : Bool := continuesWord (Char.ofUInt8 b)

/-- The token at the front, if it is not a blank or a comment, the line after it, and what follows
it. -/
def next (line : Nat) (b : UInt8) (bs : Bytes) : Except Halt (Option Token × Nat × Bytes) :=
  let c := Char.ofUInt8 b
  if isBlank c then .ok (none, passed c line, bs)
  else if c = '#' then .ok (none, line, bs.dropWhile fun x => Char.ofUInt8 x ≠ '\n')
  else if c = '"' || c = '\'' then quoted line c bs
  else if startsWord c then do
    let lexeme ← slice (b :: bs.takeWhile inWord)
    return (some ⟨if lexeme = "def" then .define else .ident, lexeme, line⟩, line,
      bs.dropWhile inWord)
  else
    match TokenKind.ofMark? c with
    | some kind => .ok (some ⟨kind, String.ofList [c], line⟩, line, bs)
    | none => do stop line (.unexpected (← charAt (b :: bs)))

section Length

variable {line after : Nat} {bs rest : Bytes} {body : List Char}

lemma length_le_of_literalBody {quote : Char} (h : literalBody line quote bs = .ok (body, rest)) :
    rest.length ≤ bs.length := by
  induction bs generalizing body with
  | nil => cases h
  | cons b bs ih =>
    rw [literalBody] at h
    split at h
    · -- the closing quote
      cases h
      exact Nat.le_succ _
    split at h
    · -- a line feed before the closing quote
      cases h
    obtain ⟨_, -, h⟩ := ok_of_bind h
    obtain ⟨⟨_, _⟩, hbody, h⟩ := ok_of_bind h
    cases h
    exact Nat.le_succ_of_le (ih hbody)

lemma length_le_of_blockBody (h : blockBody line bs = .ok (body, after, rest)) :
    rest.length ≤ bs.length := by
  induction bs generalizing line body with
  | nil => cases h
  | cons b bs ih =>
    rw [blockBody] at h
    split at h
    · cases h
      exact (List.drop_sublist 3 _).length_le
    obtain ⟨_, -, h⟩ := ok_of_bind h
    obtain ⟨⟨_, _, _⟩, hbody, h⟩ := ok_of_bind h
    cases h
    exact Nat.le_succ_of_le (ih hbody)

lemma length_le_of_next {b : UInt8} {t : Option Token}
    (h : next line b bs = .ok (t, after, rest)) : rest.length ≤ bs.length := by
  simp only [next] at h
  split at h
  · cases h
    exact Nat.le_refl _
  split at h
  · cases h
    exact List.length_dropWhile_le _ _
  split at h
  · -- a literal or a block
    unfold quoted at h
    split at h
    · obtain ⟨⟨_, _, _⟩, hbody, h⟩ := ok_of_bind h
      cases h
      exact (length_le_of_blockBody hbody).trans (List.drop_sublist 2 _).length_le
    · obtain ⟨⟨_, _⟩, hbody, h⟩ := ok_of_bind h
      cases h
      exact length_le_of_literalBody hbody
  split at h
  · obtain ⟨_, -, h⟩ := ok_of_bind h
    cases h
    exact List.length_dropWhile_le _ _
  split at h
  · cases h
    exact Nat.le_refl _
  · obtain ⟨_, -, h⟩ := ok_of_bind h
    cases h

end Length

/-- The tokens of bytes that start on this line, and the token for their end. -/
def scan (line : Nat) : Bytes → Except Halt (List Token)
  | [] => .ok [⟨.theEnd, "", line⟩]
  | b :: bs =>
    match _h : next line b bs with
    | .error halt => .error halt
    | .ok (t, after, rest) => (scan after rest).map (t.toList ++ ·)
termination_by bs => bs.length
decreasing_by exact Nat.lt_succ_of_le (length_le_of_next _h)

/-! ### Characters -/

lemma isAscii_of_le {c : Char} (h : c ≤ '~') : IsAscii c := Nat.lt_of_le_of_lt h (by decide)

lemma isAscii_of_isBlank (c : Char) (h : isBlank c) : IsAscii c := by
  have hc := isBlank_iff.mp h
  simp only [List.mem_cons, List.not_mem_nil, or_false] at hc
  rcases hc with rfl | rfl | rfl | rfl <;> exact isAscii_of_le (by decide)

lemma isAscii_of_continuesWord (c : Char) (h : continuesWord c) : IsAscii c := by
  refine isAscii_of_le ?_
  rcases continuesWord_iff.mp h with (⟨-, h⟩ | ⟨-, h⟩ | rfl) | ⟨-, h⟩
  · exact Char.le_trans h (by decide)
  · exact Char.le_trans h (by decide)
  · decide
  · exact Char.le_trans h (by decide)

lemma isAscii_of_ofMark? {c : Char} {kind : TokenKind} (h : TokenKind.ofMark? c = some kind) :
    IsAscii c := by
  have hall : ∀ m ∈ markKinds, m.1 ≤ '~' := by decide
  exact isAscii_of_le (hall _ (ofMark?_iff.mp h))

lemma isAscii_of_isPlain {c : Char} (h : Text.isPlain c) : IsAscii c := by
  refine isAscii_of_le ?_
  simp only [Text.isPlain, Bool.or_eq_true, Bool.and_eq_true, decide_eq_true_eq] at h
  rcases h with ((rfl | rfl) | rfl) | ⟨-, h⟩
  · decide
  · decide
  · decide
  · exact h

/-! ### Literals -/

section Agreement

variable (line : Nat) {c quote : Char} (s : List Char)

lemma charAt_encoded : charAt (encoded (c :: s)) = .ok c := by
  have h : (encoded (c :: s)).toByteArray.utf8DecodeChar? 0 = some c :=
    List.utf8DecodeChar?_utf8Encode_cons
  rw [charAt, h]

lemma literalChar_encoded : literalChar line (encoded (c :: s)) =
    if Text.isPlain c then .ok c else stop line .notPlain := by
  rw [literalChar, bind_of_ok (charAt_encoded s)]
  rfl

lemma literalBody_encoded_cons (hquote : IsAscii quote) :
    literalBody line quote (encoded (c :: s)) =
      if c = quote then .ok ([], encoded s)
      else if c = '\n' then stop line .openLiteral
      else if Text.isPlain c then do
        let (body, rest) ← literalBody line quote (encoded s)
        return (c :: body, rest)
      else stop line .notPlain := by
  have hfront := front_encoded c s
  have hchar := literalChar_encoded line s (c := c)
  generalize encoded (c :: s) = bytes at hfront hchar ⊢
  cases hfront with
  | ascii hb hc =>
    rw [literalBody, hb, hchar]
    split
    · rfl
    split
    · rfl
    split <;> rfl
  | other hb hc =>
    -- such a character is neither the end of a literal nor part of one
    have hne {d : Char} (hd : IsAscii d) : Char.ofUInt8 _ ≠ d ∧ c ≠ d :=
      ⟨fun h => hb (h ▸ hd), fun h => hc (h ▸ hd)⟩
    have hfeed : IsAscii '\n' := isAscii_of_le (by decide)
    have hplain : ¬ Text.isPlain c := fun h => hc (isAscii_of_isPlain h)
    rw [literalBody, hchar, if_neg (hne hquote).1, if_neg (hne hfeed).1, if_neg (hne hquote).2,
      if_neg (hne hfeed).2, if_neg hplain, if_neg hplain]
    rfl

lemma literalBody_encoded (hquote : IsAscii quote) : literalBody line quote (encoded s) =
    match s.dropWhile (inLiteral quote) with
    | [] => stop line .openLiteral
    | c :: rest =>
      if c = quote then .ok (s.takeWhile (inLiteral quote), encoded rest)
      else if c = '\n' then stop line .openLiteral
      else stop line .notPlain := by
  induction s with
  | nil => rfl
  | cons c s ih =>
    rw [literalBody_encoded_cons line s hquote]
    by_cases hin : inLiteral quote c
    · -- the character is content, and the others decide how the literal ends
      obtain ⟨hne, hfeed, hplain⟩ := inLiteral_iff.mp hin
      rw [if_neg hne, if_neg hfeed, if_pos hplain, ih, List.dropWhile_cons_of_pos hin,
        List.takeWhile_cons_of_pos hin]
      split
      · rfl
      split
      · rfl
      split <;> rfl
    · rw [List.dropWhile_cons_of_neg hin, List.takeWhile_cons_of_neg hin]
      dsimp only
      split
      · rfl
      split
      · rfl
      · rename_i hne hfeed
        exact if_neg fun hplain => hin (inLiteral_iff.mpr ⟨hne, hfeed, hplain⟩)

/-- What is found on the characters, as it is found on the bytes. -/
def onBytes {α β : Type} (f : α → β) :
    Except Stop (α × Nat × List Char) → Except Halt (β × Nat × Bytes)
  | .ok (a, after, rest) => .ok (f a, after, encoded rest)
  | .error e => stop e.line e.fault

lemma isAscii_quote {c : Char} (h : c = '"' ∨ c = '\'') : IsAscii c := by
  rcases h with rfl | rfl <;> exact isAscii_of_le (by decide)

lemma isAscii_of_mem_quotes {n : Nat} : ∀ c ∈ List.replicate n '"', IsAscii c :=
  fun _ hc => isAscii_quote (.inl (List.eq_of_mem_replicate hc))

lemma blockBody_encoded_cons (h : ¬ blockQuotes <+: c :: s) : blockBody line (encoded (c :: s)) =
    if Text.isPlain c then do
      let (body, after, rest) ← blockBody (passed c line) (encoded s)
      return (c :: body, after, rest)
    else stop line .notPlain := by
  have hquotes : ¬ [0x22, 0x22, 0x22] <+: encoded (c :: s) := fun hp =>
    h ((encoded_prefix_iff (t := List.replicate 3 '"') isAscii_of_mem_quotes).mp hp)
  have hfront := front_encoded c s
  have hchar := literalChar_encoded line s (c := c)
  generalize encoded (c :: s) = bytes at hfront hchar hquotes ⊢
  cases hfront with
  | ascii hb hc =>
    rw [blockBody, if_neg hquotes, hchar]
    split <;> rfl
  | other hb hc =>
    have hplain : ¬ Text.isPlain c := fun h => hc (isAscii_of_isPlain h)
    rw [blockBody, if_neg hquotes, hchar, if_neg hplain, if_neg hplain]
    rfl

lemma blockBody_encoded : blockBody line (encoded s) = onBytes id (Item.blockBody line s) := by
  have hopen {c : Char} {s : List Char}
      (h : ∀ rest, c = '"' → s = '"' :: '"' :: rest → False) : ¬ blockQuotes <+: c :: s := by
    rintro ⟨rest, hrest⟩
    obtain ⟨hc, hs⟩ := List.cons.inj hrest
    exact h rest hc.symm hs.symm
  fun_induction Item.blockBody line s with
  | case1 => rfl
  | case2 line rest =>
    have hquotes : [0x22, 0x22, 0x22] <+: encoded ('"' :: '"' :: '"' :: rest) := ⟨_, rfl⟩
    exact if_pos hquotes
  | case3 line c s h hplain body after rest hbody ih =>
    rw [blockBody_encoded_cons line s (hopen h), if_pos hplain, ih, hbody]
    rfl
  | case4 line c s h hplain stop hbody ih =>
    rw [blockBody_encoded_cons line s (hopen h), if_pos hplain, ih, hbody]
    rfl
  | case5 line c s h hplain =>
    rw [blockBody_encoded_cons line s (hopen h), if_neg hplain]
    rfl

lemma quoted_encoded (hquote : quote = '"' ∨ quote = '\'') :
    quoted line quote (encoded s) = onBytes (token? line) (nextQuoted line quote s) := by
  by_cases hopen : quote = '"' ∧ ['"', '"'] <+: s
  · -- three quotes
    obtain ⟨rfl, rest, rfl⟩ := hopen
    have hquotes : [0x22, 0x22] <+: encoded ('"' :: '"' :: rest) := ⟨_, rfl⟩
    change quoted line '"' (encoded ('"' :: '"' :: rest)) = onBytes _ (nextBlock line rest)
    rw [quoted, if_pos ⟨rfl, hquotes⟩]
    change (blockBody line (encoded rest) >>= _) = _
    rw [blockBody_encoded, nextBlock]
    cases Item.blockBody line rest <;> rfl
  · -- one quote, or two that stand alone
    have hquotes : ¬ (quote = '"' ∧ [0x22, 0x22] <+: encoded s) := fun h =>
      hopen ⟨h.1, (encoded_prefix_iff (t := List.replicate 2 '"') isAscii_of_mem_quotes).mp h.2⟩
    have hliteral : nextQuoted line quote s = nextLiteral line quote s := by
      unfold nextQuoted
      split
      · exact absurd ⟨rfl, _, rfl⟩ hopen
      · rfl
    rw [hliteral, quoted, if_neg hquotes, literalBody_encoded line s (isAscii_quote hquote)]
    simp only [nextLiteral]
    cases s.dropWhile (inLiteral quote) with
    | nil => rfl
    | cons c rest =>
      dsimp only
      split
      · rfl
      split <;> rfl

/-! ### One item -/

lemma slice_encoded : slice (encoded s) = .ok (String.ofList s) := by
  rw [slice, ← utf8_ofList, decodeUtf8?_utf8]

lemma startsNone_of_not_isAscii (h : ¬ IsAscii c) : StartsNone c := by
  refine startsNone_iff.mpr ⟨fun hblank => h (isAscii_of_isBlank c hblank), ?_, ?_, ?_, ?_⟩
  · rintro rfl
    exact h (isAscii_of_le (by decide))
  · exact fun hquote => h (isAscii_quote (by simpa using hquote))
  · intro hword
    have hchar : IsWordChar c := .inl (startsWord_iff.mp hword)
    exact h (isAscii_of_continuesWord c (continuesWord_iff.mpr hchar))
  · exact Option.eq_none_iff_forall_ne_some.mpr fun _ hmark => h (isAscii_of_ofMark? hmark)

lemma next_of_startsNone {b : UInt8} (h : StartsNone (Char.ofUInt8 b)) (bs : Bytes) :
    next line b bs = charAt (b :: bs) >>= fun c => stop line (.unexpected c) := by
  obtain ⟨hblank, hcomment, hquote, hword, hmark⟩ := startsNone_iff.mp h
  simp only [next]
  rw [if_neg hblank, if_neg hcomment, if_neg hquote, if_neg hword, hmark]

lemma next_encoded {b : UInt8} {bs : Bytes} (h : encoded (c :: s) = b :: bs) :
    next line b bs = onBytes (token? line) (Item.next line c s) := by
  have hfront := h ▸ front_encoded c s
  have hchar := h ▸ charAt_encoded s
  cases hfront with
  | ascii hb hc =>
    simp only [next, Item.next, hb]
    split
    · rfl
    split
    · rw [dropWhile_encoded_until (p := (· ≠ '\n'))]
      · rfl
      · intro c hc
        exact decide_eq_true fun h => hc (isAscii_of_le (h ▸ by decide))
    split
    · rename_i hquote
      exact quoted_encoded line s (by simpa using hquote)
    split
    · have hword :
          b :: (encoded s).takeWhile inWord = encoded (c :: s.takeWhile continuesWord) := by
        rw [encoded_cons_of_ascii hb hc, ← takeWhile_encoded isAscii_of_continuesWord]
        rfl
      have hrest : (encoded s).dropWhile inWord = encoded (s.dropWhile continuesWord) :=
        dropWhile_encoded isAscii_of_continuesWord s
      rw [hword, hrest, bind_of_ok (slice_encoded _)]
      rfl
    cases TokenKind.ofMark? c with
    | some kind => rfl
    | none =>
      dsimp only
      rw [hchar]
      rfl
  | other hb hc =>
    -- no test succeeds on the byte, and none would on the character
    rw [Item.next_of_startsNone line (startsNone_of_not_isAscii hc),
      next_of_startsNone line (startsNone_of_not_isAscii hb), hchar]
    rfl

/-! ### All items -/

lemma scan_encoded_cons : scan line (encoded (c :: s)) =
    match Item.next line c s with
    | .error e => stop e.line e.fault
    | .ok (item, after, rest) =>
      (scan after (encoded rest)).map ((item.token? line).toList ++ ·) := by
  cases hbytes : encoded (c :: s) with
  | nil => cases hbytes ▸ front_encoded c s
  | cons b bs =>
    have hnext := next_encoded line s hbytes
    rw [scan]
    cases hitem : Item.next line c s with
    | error e =>
      rw [hitem] at hnext
      split
      · rename_i h
        exact congrArg Except.error (Except.error.inj (h.symm.trans hnext))
      · rename_i h
        cases h.symm.trans hnext
    | ok read =>
      obtain ⟨item, after, rest⟩ := read
      rw [hitem] at hnext
      split
      · rename_i h
        cases h.symm.trans hnext
      · rename_i h
        cases h.symm.trans hnext
        rfl

lemma scan_encoded : scan line (encoded s) = (Token.scan line s).mapError .failed := by
  fun_induction Token.scan line s with
  | case1 line =>
    rw [encoded, List.flatMap_nil, scan]
    rfl
  | case2 line c s e hnext =>
    rw [scan_encoded_cons, hnext]
    rfl
  | case3 line c s item after rest hnext htoken ih =>
    rw [scan_encoded_cons, hnext]
    dsimp only
    rw [htoken, ih]
    cases Token.scan after rest <;> rfl
  | case4 line c s item after rest hnext t htoken ts hscan ih =>
    rw [scan_encoded_cons, hnext]
    dsimp only
    rw [htoken, ih, hscan]
    rfl
  | case5 line c s item after rest hnext t htoken e hscan ih =>
    rw [scan_encoded_cons, hnext]
    dsimp only
    rw [htoken, ih, hscan]
    rfl

end Agreement

end Bytewise

/-- The tokens of a program that is given as bytes. -/
def lexBytes (bytes : Bytes) : Except Halt (List Token) := Bytewise.scan 1 bytes

/-- Read byte by byte, a program has its tokens and errors: a character is read, and a word is cut
out, only between characters. -/
lemma lexBytes_utf8 (source : String) :
    lexBytes (utf8 source) = (lex source).mapError Halt.failed :=
  Bytewise.scan_encoded 1 source.toList

end TextPipeline.Token
