import ChainCompiler.Proofs.Lexeme
import ChainCompiler.Proofs.Tokens
import ChainCompiler.Token.Stream

/-! Scanning lexeme by lexeme. `Scanned` says what one step of the scanner can do: it ends with the text, stops where no
rule takes anything, or passes one whole lexeme. What holds of all scans is proved by induction on it. -/

namespace ChainCompiler

def Rule.emit (r : Rule) (text : List Char) (pos : Position) : List Token :=
  match r.kind? (String.ofList text) with
  | none => []
  | some kind => [⟨kind, String.ofList text, pos⟩]

/-- A lexeme of the rule for keywords gives a keyword, or else a name. -/
theorem Rule.kind_of_keyword {text : String} {kind : Kind} (h : Rule.keyword.kind? text = some kind) :
    kind = .identifier ∨ ∃ k, kind = .keyword k := by
  cases h
  cases Keyword.ofSpelling? text with
  | none => exact .inl rfl
  | some k => exact .inr ⟨k, rfl⟩

theorem Rule.kind?_spelling (k : Keyword) : Rule.keyword.kind? k.spelling = some (.keyword k) := by
  rw [kind?, Keyword.ofSpelling?_spelling, Option.elim_some]

inductive Scanned : Position → List Char → Except LexError (List Token) → Prop
  | done {pos} : Scanned pos [] (.ok [.eofAt pos])
  | stuck {pos c cs} : Rule.first? (c :: cs) = none → Scanned pos (c :: cs) (.error ⟨c, pos⟩)
  | lexeme {pos r text rest result} :
      Rule.first? (text ++ rest) = some (r, text.length) → text ≠ [] → Lexeme r text rest →
      Scanned (pos.after text) rest result → Scanned pos (text ++ rest) (result.map (r.emit text pos ++ ·))

namespace Token

theorem scan_skip (pos : Position) (n : Nat) (cs : List Char) :
    scan pos n cs = scan (pos.after (cs.take n)) 0 (cs.drop n) := by
  induction cs generalizing pos n with
  | nil => simp [scan]
  | cons c cs ih =>
    cases n with
    | zero => rfl
    | succ n => simpa [scan] using ih (pos.next c) n

theorem scan_lexeme {pos : Position} {r : Rule} {text rest : List Char} (hne : text ≠ [])
    (h : Rule.first? (text ++ rest) = some (r, text.length)) :
    scan pos 0 (text ++ rest) = (scan (pos.after text) 0 rest).map (r.emit text pos ++ ·) := by
  obtain ⟨c, cs, rfl⟩ := List.exists_cons_of_ne_nil hne
  have hrest : scan (pos.next c) cs.length (cs ++ rest) = scan (pos.after (c :: cs)) 0 rest := by
    rw [scan_skip]
    simp
  rw [List.cons_append] at h ⊢
  rw [scan, h]
  simp only [List.length_cons, Nat.add_sub_cancel, hrest, List.take_succ_cons, List.take_left, Rule.emit]
  congr 1
  funext ts
  cases r.kind? (String.ofList (c :: cs)) <;> rfl

theorem scanned (pos : Position) (cs : List Char) : Scanned pos cs (scan pos 0 cs) := by
  induction hn : cs.length using Nat.strong_induction_on generalizing pos cs with
  | _ n ih =>
    cases cs with
    | nil => exact .done
    | cons c cs =>
      cases h : Rule.first? (c :: cs) with
      | none =>
        rw [scan, h]
        exact .stuck h
      | some x =>
        obtain ⟨r, m⟩ := x
        obtain ⟨text, rest, hcs, rfl, hne, hlexeme⟩ := Rule.lexeme_of_first? h
        have hpos := List.length_pos_iff.2 hne
        rw [hcs] at h hn ⊢
        rw [scan_lexeme hne h]
        rw [List.length_append] at hn
        exact .lexeme h hne hlexeme (ih rest.length (by omega) _ rest rfl)

theorem scanned_of_tokenize {source : String} {ts : List Token} (h : tokenize source = .ok ts) :
    Scanned .start source.toList (.ok ts) := by
  have hscanned := scanned .start source.toList
  rwa [← tokenize, h] at hscanned

theorem kind_ne_eof_of_mem_emit {r : Rule} {text : List Char} {pos : Position} {t : Token} (h : t ∈ r.emit text pos) :
    t.kind ≠ .eof := by
  unfold Rule.emit at h
  split at h
  · cases h
  · next kind hk =>
    obtain rfl := List.mem_singleton.1 h
    cases r with
    | keyword =>
      obtain rfl | ⟨k, rfl⟩ := Rule.kind_of_keyword hk <;> simp
    | _ => cases hk <;> simp

/-- What is scanned ends in its only end of input. -/
theorem endsOnce_of_scanned {pos : Position} {cs : List Char} {ts : List Token} (h : Scanned pos cs (.ok ts)) :
    EndsOnce ts := by
  generalize hresult : Except.ok ts = result at h
  induction h generalizing ts with
  | done =>
    cases hresult
    exact ⟨[], _, rfl, rfl, by simp⟩
  | stuck => cases hresult
  | @lexeme pos r text rest result _ _ _ _ ih =>
    cases result with
    | error e => cases hresult
    | ok us =>
      cases hresult
      obtain ⟨init, eof, rfl, he, hinit⟩ := ih rfl
      refine ⟨r.emit text pos ++ init, eof, by simp, he, fun t ht => ?_⟩
      exact (List.mem_append.1 ht).elim kind_ne_eof_of_mem_emit (hinit t)

end Token

end ChainCompiler
