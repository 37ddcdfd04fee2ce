import ScopedGrammar.Proofs.Text.Binary64

/-!
# Tokens under any layout

A list of tokens can be written as a text in many ways (`Renders`): with blanks and comments around the tokens, and
without any between two that keep apart. All of them are read back as the same list, and behind it every call gives the
end of the text (`Lexer.call_of_renders`). What stands behind a token has to end it (`Renders.isEndedBy`): a name goes
on over anything that does not separate, and a number takes a point in front of a digit for its own.
-/

namespace ScopedGrammar

variable {W : Type}

/-! ## Layout -/

/-- Layout: blanks, and comments with the line breaks that end them. -/
inductive IsLayout : List Char → Prop
  | nil : IsLayout []
  | blank {c : Char} {cs : List Char} : Character.isBlank c = true → IsLayout cs → IsLayout (c :: cs)
  | comment {line cs : List Char} : '\n' ∉ line → IsLayout cs → IsLayout ('%' :: (line ++ '\n' :: cs))

namespace Lexer

theorem skipLayout_line {line : List Char} (hline : '\n' ∉ line) (cs : List Char) :
    skipLayout true (line ++ '\n' :: cs) = skipLayout false cs := by
  induction line with
  | nil => rfl
  | cons c line ih =>
    obtain ⟨hc, hline⟩ := not_or.mp (List.mem_cons.not.mp hline)
    have hgoes : (c != '\n') = true := bne_iff_ne.mpr (Ne.symm hc)
    rw [List.cons_append, skipLayout, hgoes, ih hline]

/-- Layout is passed over. -/
theorem skipLayout_of_isLayout {layout : List Char} (h : IsLayout layout) (cs : List Char) :
    skipLayout false (layout ++ cs) = skipLayout false cs := by
  induction h with
  | nil => rfl
  | blank hc _ ih =>
    rw [List.cons_append, skipLayout, if_pos hc, ih]
  | comment hline _ ih =>
    rw [List.cons_append, List.append_assoc, List.cons_append, skipLayout, if_neg (by decide),
      if_pos (by decide), skipLayout_line hline, ih]

/-! ## Calls one after another -/

variable [Numeral W]

/-- What a call gives, counted from zero. -/
def call : Nat → Lexer → Except (ClauseError W) (Token W)
  | 0, l => l.next.1
  | n + 1, l => call n (l.next (W := W)).2

/-- The calls give the tokens of a text, and then its end over and over. -/
theorem Yields.call_eq {l : Lexer} {ts : List (Token W)} (h : Yields l ts) : ∀ n,
    call n l = .ok (ts[n]?.getD .eof) := by
  induction h with
  | @eof l l' hn =>
    intro n
    obtain ⟨-, -, rfl⟩ := next_eq_eof hn
    have hend : ∀ n, call n ⟨[], false⟩ = .ok (.eof : Token W) := by
      intro n
      induction n with
      | zero => rfl
      | succ n ih => exact ih
    cases n with
    | zero => rw [call, hn]; rfl
    | succ n => rw [call, hn, hend]; rfl
  | token hn _ _ ih =>
    intro n
    cases n with
    | zero => rw [call, hn]; rfl
    | succ n => rw [call, hn, ih]; rfl

theorem yields_layout {layout cs : List Char} {ts : List (Token W)} (hlayout : IsLayout layout)
    (h : Yields ⟨cs, false⟩ ts) : Yields ⟨layout ++ cs, false⟩ ts := by
  refine h.of_next_eq ?_
  show readToken (skipLayout false cs) = readToken (skipLayout false (layout ++ cs))
  rw [skipLayout_of_isLayout hlayout]

end Lexer

/-! ## Texts for tokens -/

/-- How a token is written: a name bare, a string in quotes, a finite number without an exponent, and a mark. -/
inductive Token.Written [Arith W] [Numeral W] : Token W → List Char → Prop
  | name {cs : List Char} : Symbol.isBare cs = true → Written (.name cs) cs
  | quoted (cs : List Char) : Written (.quoted cs) (Symbol.quote cs)
  | number {w : W} : Arith.isFinite w = true → Written (.number w) (Numeral.print w)
  | mark (m : Mark) : Written (.mark m) m.text

/-- Whether a token can stand right behind another, with some text behind it. A mark or a string on either side keeps
them apart, but a point right behind a number belongs to the number if a digit follows. -/
def Token.abuts : Token W → Token W → List Char → Bool
  | .number _, .mark .dot, rest => !rest.head?.any Char.isDigit
  | .mark _, _, _ => true
  | .quoted _, _, _ => true
  | _, .mark _, _ => true
  | _, .quoted _, _ => true
  | _, _, _ => false

/-- A text for tokens: each of them as it is written, with layout in front of it, and layout at the end. Behind another
token the layout may be empty only if the two can stand side by side. -/
inductive Renders [Arith W] [Numeral W] : Option (Token W) → List (Token W) → List Char → Prop
  | nil {before : Option (Token W)} {layout : List Char} : IsLayout layout → Renders before [] layout
  | token {before : Option (Token W)} {t : Token W} {ts : List (Token W)} {layout text rest : List Char} :
      IsLayout layout → (layout = [] → ∀ u ∈ before, u.abuts t rest = true) → t.Written text →
        Renders (some t) ts rest → Renders before (t :: ts) (layout ++ (text ++ rest))

/-! ## Ends of tokens -/

/-- Whether the text behind a token ends it. Marks and strings end by themselves. -/
def Token.isEndedBy : Token W → List Char → Bool
  | .name _, rest => isSeparated rest
  | .number _, rest => Lexer.endsNumber rest
  | _, _ => true

/-- Layout ends every token. -/
theorem IsLayout.isEndedBy {layout : List Char} (h : IsLayout layout) (hne : layout ≠ []) (t : Token W)
    (rest : List Char) : t.isEndedBy (layout ++ rest) = true := by
  cases h with
  | nil => exact absurd rfl hne
  | @blank c cs hc _ =>
    have hsep : isSeparated (c :: (cs ++ rest)) = true := by simp [isSeparated, Character.separates, hc]
    have hdot : c ≠ '.' := by
      rintro rfl
      exact absurd hc (by decide)
    cases t with
    | name _ => exact hsep
    | number _ => simpa [Token.isEndedBy, Lexer.endsNumber, hdot] using hsep
    | _ => rfl
  | comment _ _ => cases t <;> rfl

section

variable [Arith W] [Numeral W] {t u : Token W} {ts : List (Token W)} {text rest : List Char}

/-- A token ends where another one can stand right behind it. -/
theorem Token.Written.isEndedBy (h : t.Written text) (habuts : u.abuts t rest = true) :
    u.isEndedBy (text ++ rest) = true := by
  cases h with
  | name _ => cases u <;> first | rfl | cases habuts
  | quoted cs => cases u <;> rfl
  | number _ => cases u <;> first | rfl | cases habuts
  | mark m => cases u <;> cases m <;> first | rfl | exact habuts

/-- What is rendered behind a token ends it. -/
theorem Renders.isEndedBy (h : Renders (some u) ts rest) : u.isEndedBy rest = true := by
  cases h with
  | nil hlayout =>
    by_cases hne : rest = []
    · rw [hne]
      cases u <;> rfl
    · have hends := hlayout.isEndedBy hne u []
      rwa [List.append_nil] at hends
  | @token _ _ _ layout _ _ hlayout habuts hwritten _ =>
    by_cases hne : layout = []
    · rw [hne]
      exact hwritten.isEndedBy (habuts hne u rfl)
    · exact hlayout.isEndedBy hne u _

/-! ## Reading back -/

variable [Numeral.ReadsBack W]

theorem Token.Written.yields (h : t.Written text) (hends : t.isEndedBy rest = true)
    (hrest : Lexer.Yields ⟨rest, false⟩ ts) : Lexer.Yields ⟨text ++ rest, false⟩ (t :: ts) := by
  cases h with
  | name hbare => exact Lexer.yields_name hbare hends hrest
  | quoted cs => exact Lexer.yields_quoted hrest
  | number hfinite => exact Lexer.yields_weight hfinite hends hrest
  | mark m => exact Lexer.yields_mark m hrest

/-- **A rendered list of tokens is read back.** The induction is on the tokens, from the last one to the first. -/
theorem Renders.yields {before : Option (Token W)} (h : Renders before ts text) : Lexer.Yields ⟨text, false⟩ ts := by
  induction h with
  | @nil _ layout hlayout =>
    have h := Lexer.yields_layout hlayout (Lexer.yields_nil (W := W))
    rwa [List.append_nil] at h
  | token hlayout _ hwritten hrest ih => exact Lexer.yields_layout hlayout (hwritten.yields hrest.isEndedBy ih)

end

namespace Lexer

/-- **Tokens under any layout are read back**, and behind them every call gives the end of the text. -/
theorem call_of_renders {ts : List (Token Float)} {text : List Char} (h : Renders none ts text) (n : Nat) :
    call n ⟨text, false⟩ = .ok (ts[n]?.getD .eof) := h.yields.call_eq n

/-- A text with as little layout inside as there can be, and comments at both ends. -/
def squeezed : List Char :=
  ['%', '.', '\n', 'S', '-', '>', '"', '%', '\\', '"', '\n', '"', 'é', '2', ' ', '2', '.', '5', '.', '-', '0', '\t', 'x',
    '%', '\n']

def squeezedTokens : List (Token Float) :=
  [.name ['S'], .mark .arrow, .quoted ['%', '"', '\n'], .name ['é', '2'], .number 2.5, .mark .dot, .number (-0.0),
    .name ['x']]

theorem renders_squeezed : Renders none squeezedTokens squeezed := by
  have hprint : Numeral.print (-0.0 : Float) = ['-', '0'] ∧ Numeral.print (2.5 : Float) = ['2', '.', '5'] := by
    decide +kernel
  have hzero : Token.Written (.number (-0.0 : Float)) ['-', '0'] := hprint.1 ▸ .number rfl
  have htwo : Token.Written (.number (2.5 : Float)) ['2', '.', '5'] := hprint.2 ▸ .number rfl
  have hfirst : IsLayout ['%', '.', '\n'] := .comment (by decide : '\n' ∉ ['.']) .nil
  have hspace : IsLayout [' '] := .blank rfl .nil
  have htab : IsLayout ['\t'] := .blank rfl .nil
  have hlast : IsLayout ['%', '\n'] := .comment List.not_mem_nil .nil
  have hx : Renders (some (.number (-0.0))) [.name ['x']] _ := .token htab nofun (.name rfl) (.nil hlast)
  have hpoint : Renders (some (.number 2.5)) [.mark .dot, .number (-0.0), .name ['x']] _ :=
    .token .nil (fun _ _ hu => by cases hu; rfl) (.mark .dot)
      (.token .nil (fun _ _ hu => by cases hu; rfl) hzero hx)
  have hnumber : Renders (some (.name ['é', '2'])) (.number 2.5 :: _) _ := .token hspace nofun htwo hpoint
  have hname : Renders (some (.quoted ['%', '"', '\n'])) (.name ['é', '2'] :: _) _ :=
    .token .nil (fun _ _ hu => by cases hu; rfl) (.name rfl) hnumber
  have hquoted : Renders (some (.mark .arrow)) (.quoted ['%', '"', '\n'] :: _) _ :=
    .token .nil (fun _ _ hu => by cases hu; rfl) (.quoted _) hname
  have harrow : Renders (some (.name ['S'])) (.mark .arrow :: _) _ :=
    .token .nil (fun _ _ hu => by cases hu; rfl) (.mark .arrow) hquoted
  exact .token hfirst nofun (.name rfl) harrow

theorem call_squeezed : Renders none squeezedTokens squeezed ∧
    call 2 ⟨squeezed, false⟩ = .ok (.quoted ['%', '"', '\n'] : Token Float) ∧
    call 9 ⟨squeezed, false⟩ = .ok (.eof : Token Float) :=
  ⟨renders_squeezed, call_of_renders renders_squeezed 2, call_of_renders renders_squeezed 9⟩

end Lexer

end ScopedGrammar
