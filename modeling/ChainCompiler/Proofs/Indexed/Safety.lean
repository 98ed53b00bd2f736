import ChainCompiler.Proofs.Indexed.Statement

/-! Every sequence of tokens is parsed safely. The machine, which could look outside of the tokens and go ever deeper,
settles on all of them on what the parser gives. Its index never decreases and never gets past the first end of input,
each of its parts passes a token, and the tokens after the first end of input do not matter. -/

namespace ChainCompiler

def firstEnd (ts : List Token) : Nat := ts.findIdx (·.kind == .eof)

theorem firstEnd_append {front rest : List Token} {eof : Token} (hfront : ∀ t ∈ front, t.kind ≠ .eof)
    (heof : eof.kind = .eof) : firstEnd (front ++ eof :: rest) = front.length := by
  rw [firstEnd, List.findIdx_append, if_neg, List.findIdx_cons, heof]
  · simp
  · rw [List.findIdx_lt_length]
    simpa using hfront

/-- Where an end of input comes, there is a first one. -/
theorem exists_first_eof {ts : List Token} (h : ∃ t ∈ ts, t.kind = .eof) :
    ∃ front eof rest, ts = front ++ eof :: rest ∧ (∀ t ∈ front, t.kind ≠ .eof) ∧ eof.kind = .eof := by
  obtain ⟨t, ht, hk⟩ := h
  have hsome : (ts.find? (·.kind == .eof)).isSome := List.find?_isSome.2 ⟨t, ht, by simpa using hk⟩
  obtain ⟨eof, heof⟩ := Option.isSome_iff_exists.1 hsome
  obtain ⟨hkind, front, rest, rfl, hfront⟩ := List.find?_eq_some_iff_append.1 heof
  exact ⟨front, eof, rest, rfl, fun u hu => by simpa using hfront u hu, by simpa using hkind⟩

namespace Cursor

/-- The start of a sequence has the tokens of the sequence, and an end of input after them if they do not end in one. -/
theorem tokens_ofTokens (ts : List Token) :
    (ofTokens ts).tokens = ts ∨ ∃ p, (ofTokens ts).tokens = ts ++ [.eofAt p] := by
  cases ts with
  | nil => exact .inr ⟨.start, rfl⟩
  | cons t ts =>
    rw [ofTokens]
    split
    · exact .inl rfl
    · exact .inr ⟨_, rfl⟩

theorem closed_ofTokens (ts : List Token) : (ofTokens ts).Closed := by
  cases ts with
  | nil => exact ⟨.eofAt .start, List.mem_cons_self, rfl⟩
  | cons t ts =>
    rw [ofTokens]
    split
    · next hlast => exact ⟨ts.getLastD t, List.getLastD_mem_cons, hlast⟩
    · exact ⟨.eofAt (endOf (ts.getLastD t)), by simp [tokens], rfl⟩

end Cursor

namespace Input

variable (x : Input)

/-- The machine ends on a whole sequence with what the parser gives, also if the parser has other tokens after the first
end of input. -/
theorem exists_program_eq :
    ∃ s : Course, s.Sound x.last ∧
      Indexed.Settles Indexed.program x.tokens .start
        (((Parser.program (x.place 0)).map (·.1)).mapError .refused, s) := by
  have hsound : Course.start.Sound x.last := ⟨List.pairwise_singleton _ _, Nat.zero_le _⟩
  have hbound : x.last - 0 < (x.place 0).rest.length + 1 := by
    rw [x.length_rest_place]
    omega
  obtain ⟨r, hsettles, hmatch⟩ := Follows.statements _ (Nat.zero_le _) hbound .start rfl hsound
  change x.Matches 0 0 (Parser.program (x.place 0)) _ at hmatch
  generalize Parser.program (x.place 0) = p at hmatch ⊢
  cases hmatch with
  | @read a s hsound' _ => exact ⟨s, hsound', hsettles⟩
  | @refused e s hsound' _ => exact ⟨s, hsound', hsettles⟩

end Input

/-- A part of the machine is safe on some tokens: from every index up to the first end of input it settles on ending, at
such an index again, with what the parser gives at that place under any bound that covers the tokens left. Unless it is
refused, it has passed a token. -/
def Advances {α : Type} (tokens : List Token) (P : Nat → Parser α) (W : Nat → Indexed α) : Prop :=
  ∀ (s : Course) (c : Cursor) (n : Nat), s.Sound (firstEnd tokens) → c.tokens = tokens.drop s.index →
    c.rest.length ≤ n →
    ∃ s' : Course, s'.Sound (firstEnd tokens) ∧
      match P n c with
      | .ok (a, c') =>
        Indexed.Settles W tokens s (.ok a, s') ∧ s.index < s'.index ∧ c'.tokens = tokens.drop s'.index
      | .error e => Indexed.Settles W tokens s (.error (.refused e), s') ∧ s.index ≤ s'.index

theorem advances_of_follows {α : Type} {tokens : List Token} {P : Nat → Parser α} {W : Nat → Indexed α}
    (hend : ∃ t ∈ tokens, t.kind = .eof)
    (h : ∀ (x : Input) (i n : Nat), i ≤ x.last → x.last - i ≤ n → Follows x 1 (P n) W i) : Advances tokens P W := by
  obtain ⟨front, eof, rest, rfl, hfront, heof⟩ := exists_first_eof hend
  intro s c n hsound hc hn
  rw [firstEnd_append hfront heof] at hsound ⊢
  let x : Input := ⟨front, eof, rest, rest, hfront, heof⟩
  have hdrop : ∀ i ≤ x.last, (front ++ eof :: rest).drop i = (x.place i).tokens := by
    intro i hi
    rw [x.tokens_place, List.drop_append_of_le_length hi]
  obtain rfl : c = x.place s.index := Cursor.ext_tokens (hc.trans (hdrop _ hsound.bounded))
  rw [x.length_rest_place] at hn
  obtain ⟨r, hsettles, hmatch⟩ := h x s.index n hsound.bounded (by omega) s rfl hsound
  generalize P n (x.place s.index) = p at hmatch ⊢
  cases hmatch with
  | @read a s' hsound' hlt => exact ⟨s', hsound', hsettles, hlt, (hdrop _ hsound'.bounded).symm⟩
  | @refused e s' hsound' hle => exact ⟨s', hsound', hsettles, hle⟩

namespace Program

/-- Parsing does not go past the first end of input. -/
theorem ofTokens_append_eof_eq {eof : Token} (heof : eof.kind = .eof) (front rest rest' : List Token) :
    ofTokens (front ++ eof :: rest) = ofTokens (front ++ eof :: rest') := by
  -- Both sequences have the same tokens up to their first end of input, which may come before the given one.
  have hmem : ∃ t ∈ front ++ [eof], t.kind = .eof := ⟨eof, by simp, heof⟩
  obtain ⟨first, e, more, hfirst, hne, he⟩ := exists_first_eof hmem
  have htokens : ∀ us, ∃ vs, (Cursor.ofTokens (front ++ eof :: us)).tokens = first ++ e :: vs := by
    intro us
    have happend : front ++ eof :: us = first ++ e :: (more ++ us) := by
      rw [← List.cons_append, ← List.append_assoc, ← hfirst]
      simp
    rcases Cursor.tokens_ofTokens (front ++ eof :: us) with h | ⟨p, h⟩
    · exact ⟨more ++ us, h.trans happend⟩
    · exact ⟨more ++ us ++ [.eofAt p], by rw [h, happend]; simp⟩
  obtain ⟨vs, hvs⟩ := htokens rest
  obtain ⟨ws, hws⟩ := htokens rest'
  have hplace : ∀ (us vs : List Token) (c : Cursor), c.tokens = first ++ e :: vs →
      (Input.mk first e us vs hne he).place 0 = c := by
    intro us vs c hc
    apply Cursor.ext_tokens
    rw [Input.tokens_place, hc]
    rfl
  -- The machine runs over the first sequence, and follows the parser on either.
  obtain ⟨s, -, hs⟩ := (Input.mk first e vs vs hne he).exists_program_eq
  obtain ⟨s', -, hs'⟩ := (Input.mk first e vs ws hne he).exists_program_eq
  rw [hplace vs vs _ hvs] at hs
  rw [hplace vs ws _ hws] at hs'
  have hinjective := congrArg Prod.fst (hs.unique hs')
  change (ofTokens _).mapError Stop.refused = (ofTokens _).mapError Stop.refused at hinjective
  generalize ofTokens (front ++ eof :: rest) = p at hinjective ⊢
  generalize ofTokens (front ++ eof :: rest') = q at hinjective ⊢
  cases p with
  | error e =>
    cases q with
    | error e' => cases hinjective; rfl
    | ok b => cases hinjective
  | ok a =>
    cases q with
    | error e' => cases hinjective
    | ok b => cases hinjective; rfl

end Program

/-- On every sequence of tokens the machine ends from some depth on, with what the parser gives and without a look
outside of the tokens. Its indices never decrease and none is beyond the first end of input; every part of it below the
whole program passes a token unless it is refused; and whatever comes after an end of input may be exchanged. -/
theorem Indexed.program_safe (ts : List Token) :
    let tokens := (Cursor.ofTokens ts).tokens
    (∃ s : Course, Indexed.Settles Indexed.program tokens .start ((Program.ofTokens ts).mapError .refused, s) ∧
      s.indices.Pairwise (· ≥ ·) ∧ (∀ i ∈ s.indices, i ≤ firstEnd tokens) ∧ firstEnd tokens < tokens.length) ∧
    (Advances tokens Parser.definition definition ∧ Advances tokens Parser.chain chain ∧
      Advances tokens Parser.schema schema ∧
      (∀ bracketed,
        Advances tokens (fun n => Parser.pipeline n (Parser.routerBlock n) bracketed) (pipeline bracketed)) ∧
      Advances tokens (fun n => Parser.step n (Parser.routerBlock n)) step ∧
      Advances tokens (fun n => Parser.exprBlock n (Parser.routerBlock n)) exprBlock ∧
      Advances tokens Parser.expr expr ∧
      (∀ name, Advances tokens (fun n => Parser.call n (Parser.expr n) name) (call name)) ∧
      Advances tokens (fun n => Parser.listLiteral n (Parser.expr n)) listLiteral ∧
      Advances tokens (fun n => Parser.objectLiteral n (Parser.expr n)) objectLiteral ∧
      Advances tokens Parser.routerBlock routerBlock) ∧
    ∀ front eof rest rest', ts = front ++ eof :: rest → eof.kind = .eof →
      Program.ofTokens (front ++ eof :: rest') = Program.ofTokens ts := by
  intro tokens
  have hend : ∃ t ∈ tokens, t.kind = .eof := Cursor.closed_ofTokens ts
  have hexpr : ∀ (x : Input) (i n : Nat), x.last - i ≤ n → FollowsBelow x (x.last - i) (Parser.expr n) expr :=
    fun x i n hn j hj hlt => Follows.expr hj (by omega)
  have hblock : ∀ (x : Input) (i n : Nat), x.last - i ≤ n →
      FollowsBelow x (x.last - i) (Parser.routerBlock n) routerBlock :=
    fun x i n hn => Follows.routerBlock (by omega)
  refine ⟨?_, ⟨?_, ?_, ?_, ?_, ?_, ?_, ?_, ?_, ?_, ?_, ?_⟩, ?_⟩
  · obtain ⟨front, eof, rest, hsplit, hfront, heof⟩ := exists_first_eof hend
    let x : Input := ⟨front, eof, rest, rest, hfront, heof⟩
    obtain ⟨s, hsound, hs⟩ := x.exists_program_eq
    have hplace : x.place 0 = Cursor.ofTokens ts := Cursor.ext_tokens (x.tokens_place 0 ▸ hsplit.symm)
    rw [hplace, show x.tokens = tokens from hsplit.symm] at hs
    have hlast : firstEnd tokens = x.last := by rw [hsplit, firstEnd_append hfront heof]; rfl
    refine ⟨s, hs, hsound.ascending, fun i hi => ?_, ?_⟩
    · rw [hlast]
      rcases List.mem_cons.1 hi with rfl | hi
      · exact hsound.bounded
      · exact Nat.le_trans ((List.pairwise_cons.1 hsound.ascending).1 i hi) hsound.bounded
    · rw [hlast, hsplit, List.length_append, List.length_cons]
      exact Nat.lt_add_of_pos_right (Nat.succ_pos _)
  · exact advances_of_follows hend fun x i n hi hn => Follows.definition hi hn
  · exact advances_of_follows hend fun x i n hi hn => Follows.chain hi hn
  · exact advances_of_follows hend fun x i n hi hn => Follows.schema hi hn
  · intro bracketed
    exact advances_of_follows hend fun x i n hi hn => .pipeline (hblock x i n hn) bracketed hi (Nat.le_refl _) hn
  · exact advances_of_follows hend fun x i n hi hn => .step (hblock x i n hn) hi (Nat.le_refl _) hn
  · exact advances_of_follows hend fun x i n hi hn => .exprBlock (hblock x i n hn) hi (Nat.le_refl _) hn
  · exact advances_of_follows hend fun x i n hi hn => .expr hi hn
  · intro name
    exact advances_of_follows hend fun x i n hi hn => .call (hexpr x i n hn) name hi (Nat.le_refl _) hn
  · exact advances_of_follows hend fun x i n hi hn => .listLiteral (hexpr x i n hn) hi (Nat.le_refl _) hn
  · exact advances_of_follows hend fun x i n hi hn => .objectLiteral (hexpr x i n hn) hi (Nat.le_refl _) hn
  · exact advances_of_follows hend fun x i n hi hn => Follows.routerBlockTo _ hi (by omega)
  · rintro front eof rest rest' rfl heof
    exact Program.ofTokens_append_eof_eq heof front rest' rest

/-- Tokens that no text gives: a keyword with another text, and a bracket after the end of input. -/
def oddTokens : List Token :=
  [⟨.keyword .schemaKw, "chain", ⟨7, 1⟩⟩, ⟨.identifier, "def", ⟨2, 3⟩⟩, ⟨.mark .lbrace, "", ⟨1, 1⟩⟩,
    ⟨.newline, "", ⟨1, 1⟩⟩, ⟨.mark .rbrace, "", ⟨1, 1⟩⟩, ⟨.eof, "", ⟨1, 1⟩⟩, ⟨.mark .rparen, ")", ⟨1, 1⟩⟩]

/-- The machine reads them as a schema, and would also with other tokens after the end of input. -/
theorem Indexed.program_safe_oddTokens :
    (∃ s : Course, Indexed.Settles Indexed.program (Cursor.ofTokens oddTokens).tokens .start
        (.ok [⟨"def", 7, .schema []⟩], s) ∧ ∀ i ∈ s.indices, i ≤ 5) ∧
      Program.ofTokens (oddTokens.take 6) = .ok [⟨"def", 7, .schema []⟩] := by
  have hparsed : Program.ofTokens oddTokens = .ok [⟨"def", 7, .schema []⟩] := rfl
  obtain ⟨⟨s, hs, -, hle, -⟩, -, hrest⟩ := Indexed.program_safe oddTokens
  rw [hparsed] at hs hrest
  exact ⟨⟨s, hs, hle⟩, hrest (oddTokens.take 5) ⟨.eof, "", ⟨1, 1⟩⟩ _ [] rfl rfl⟩

end ChainCompiler
