import NestedFun.Proofs.SystemDeclarations
import NestedFun.Proofs.Unnumbered
import NestedFun.Proofs.ViablePrefixes

namespace NestedFun

/-!
# The parser follows the grammar

Every part of the parser reads a phrase: what it returns is the value of a derivation of the tokens
that it takes, and where it gives up the derivation halts.
-/

def Token.Fits (token : Token) : Prop :=
  token.kind = .integer → decimalValue token.lexeme < wordBound

/-- Tokens that are no integers fit. -/
theorem Token.fits_of_kind {token : Token} (h : token.kind ≠ .integer) : token.Fits :=
  fun hkind => absurd hkind h

/-- Tokens fit if the only integer among them is 0. -/
theorem fits_of_forms {tokens : List Token} {forms : List (TokenKind × List Char)}
    (h : tokens.map Token.form = forms)
    (hzeros : ∀ form ∈ forms, form.1 = .integer → form.2 = ['0']) : ∀ token ∈ tokens, token.Fits := by
  intro token htoken hkind
  have hlexeme := hzeros token.form (h ▸ List.mem_map_of_mem (f := Token.form) htoken) hkind
  rw [show token.lexeme = ['0'] from hlexeme]
  decide

namespace Derivation

theorem values_append {s : Symbol} {form : List Symbol} (d : Derivation [s]) (d' : Derivation form) :
    (d.append d').values = (d.values.1, d'.values) := by
  cases d with
  | token t h rest =>
      cases rest
      rfl
  | phrase rule parts rest =>
      cases rest
      rfl

end Derivation

namespace Reader

/-- The tokens that are left; the end of the file is one of them. -/
def upcoming (r : Reader) : List Token := r.tokens.list ++ r.tokens.ending.toOption.toList

def nextKind (r : Reader) : TokenKind := (r.tokens.list.map Token.kind).headD .endOfFile

def Ends (r : Reader) : Prop := ∀ token, r.tokens.ending = .ok token → token.kind = .endOfFile

structure Follows {form : List Symbol} (d : Derivation form) (r r' : Reader) : Prop where
  list_eq : r.tokens.list = d.tokens ++ r'.tokens.list
  ending_eq : r'.tokens.ending = r.tokens.ending
  guided : d.Guided r'.nextKind
  fits : ∀ token ∈ d.tokens, token.Fits

/-- Why a phrase cannot be read: an error among the tokens, an integer that fits no word, or a token
where the derivation halts, behind others that have been read. -/
inductive Fails (r : Reader) (form : List Symbol) : CompileError → Prop where
  | lexical {e : CompileError} (h : r.tokens.ending = .error e) : Fails r form e
  | integer {token : Token} (hmem : token ∈ r.tokens.list) (h : ¬ token.Fits) :
      Fails r form ⟨token.span, .syntactic .integerTooLarge⟩
  | halts {front back : List Token} {next : Token} (wanted : Wanted)
      (hupcoming : r.upcoming = front ++ next :: back) (hfits : ∀ token ∈ front, token.Fits)
      (h : Halts form (front.map Token.kind) next.kind) : Fails r form (unexpected wanted next)

/-- What a part of the parser does that reads `form`, with `after` required behind it: the values of
the symbols and what it returns belong together by `R`. -/
def Derives {α : Type} {P : Reader → Prop} (r : Reader)
    (x : Except CompileError (α × { r' : Reader // P r' })) (form after : List Symbol)
    (R : Values form → α → Prop) : Prop :=
  r.Ends →
    (∀ a r', x = .ok (a, r') → ∃ d : Derivation form, Follows d r r'.1 ∧ R d.values a) ∧
      ∀ e, x = .error e → r.Fails (form ++ after) e

variable {r r' : Reader} {form form' after : List Symbol} {α β γ : Type} {P P₁ : Reader → Prop}
  {kind : TokenKind}

namespace Follows

theorem nextKind_eq {d : Derivation form} (h : Follows d r r') :
    r.nextKind = d.kinds.headD r'.nextKind := by
  rw [nextKind, h.list_eq, List.map_append, Derivation.headD_append]
  rfl

theorem ends {d : Derivation form} (h : Follows d r r') (hr : r.Ends) : r'.Ends :=
  fun token htoken => hr token (h.ending_eq ▸ htoken)

theorem upcoming_eq {d : Derivation form} (h : Follows d r r') :
    r.upcoming = d.tokens ++ r'.upcoming := by
  rw [upcoming, upcoming, h.list_eq, h.ending_eq, List.append_assoc]

theorem nil (h : r'.tokens = r.tokens) : Follows .nil r r' :=
  ⟨by rw [h]; rfl, by rw [h], trivial, nofun⟩

theorem append {r₁ : Reader} {d : Derivation form} {d' : Derivation form'} (h : Follows d r r₁)
    (h' : Follows d' r₁ r') : Follows (d.append d') r r' where
  list_eq := by rw [h.list_eq, h'.list_eq, Derivation.tokens_append, List.append_assoc]
  ending_eq := h'.ending_eq.trans h.ending_eq
  guided := Derivation.Guided.append (h'.nextKind_eq ▸ h.guided) h'.guided
  fits token hmem := by
    rw [Derivation.tokens_append, List.mem_append] at hmem
    exact hmem.elim (h.fits token) (h'.fits token)

theorem phrase {p : Phrase} {rule : Rule p} {d : Derivation rule.form} (happlies : rule.Applies r.nextKind)
    (h : Follows d r r') : Follows (.phrase rule d .nil) r r' where
  list_eq := by rw [h.list_eq, Derivation.tokens, Derivation.tokens, List.append_nil]
  ending_eq := h.ending_eq
  guided := by
    refine ⟨?_, h.guided, trivial⟩
    rw [Derivation.kinds_nil, List.append_nil, ← h.nextKind_eq]
    exact happlies
  fits token hmem := by
    rw [Derivation.tokens, Derivation.tokens, List.append_nil] at hmem
    exact h.fits token hmem

end Follows

/-- The next token is the first of those that are left. -/
theorem nextKind_eq_headD (hr : r.Ends) {front back : List Token} {next : Token}
    (h : r.upcoming = front ++ next :: back) : r.nextKind = (front.map Token.kind).headD next.kind := by
  have hhead : r.nextKind = (r.upcoming.map Token.kind).headD .endOfFile := by
    rw [nextKind, upcoming, List.map_append, Derivation.headD_append]
    cases hending : r.tokens.ending with
    | error e => rfl
    | ok token =>
        have hkind := hr token hending
        simp [Except.toOption, hkind]
  rw [hhead, h, List.map_append, Derivation.headD_append]
  rfl

theorem peek_eq_ok {token : Token} (h : r.peek = .ok token) : ∃ back, r.upcoming = token :: back := by
  rw [peek] at h
  split at h
  · rename_i hlist
    exact ⟨[], by rw [upcoming, hlist, h]; rfl⟩
  · rename_i first rest hlist
    cases h
    exact ⟨rest ++ r.tokens.ending.toOption.toList, by rw [upcoming, hlist]; rfl⟩

theorem peek_kind (hr : r.Ends) {token : Token} (h : r.peek = .ok token) : token.kind = r.nextKind := by
  obtain ⟨back, hupcoming⟩ := peek_eq_ok h
  have hfirst : r.upcoming = [] ++ token :: back := hupcoming
  exact (nextKind_eq_headD hr hfirst).symm

theorem peek_eq_error {e : CompileError} (h : r.peek = .error e) : r.tokens.ending = .error e := by
  rw [peek] at h
  split at h
  · exact h
  · cases h

namespace Fails

variable {e : CompileError}

theorem append (h : r.Fails form e) (form' : List Symbol) : r.Fails (form ++ form') e := by
  cases h with
  | lexical h => exact lexical h
  | integer hmem h => exact integer hmem h
  | halts wanted hupcoming hfits h => exact halts wanted hupcoming hfits (h.append form')

theorem behind {d : Derivation form} (hd : Follows d r r') (hr : r.Ends) (h : r'.Fails form' e) :
    r.Fails (form ++ form') e := by
  cases h with
  | lexical h => exact lexical (hd.ending_eq ▸ h)
  | integer hmem h => exact integer (hd.list_eq ▸ List.mem_append_right _ hmem) h
  | @halts front back next wanted hupcoming hfits h =>
      have hall : r.upcoming = (d.tokens ++ front) ++ next :: back := by
        rw [hd.upcoming_eq, hupcoming, List.append_assoc]
      refine halts wanted hall (List.forall_mem_append.mpr ⟨hd.fits, hfits⟩) ?_
      rw [List.map_append]
      refine h.behind d ?_
      rw [← nextKind_eq_headD (hd.ends hr) hupcoming]
      exact hd.guided

/-- Failing inside a rule that applies. -/
theorem phrase {p : Phrase} (rule : Rule p) (hr : r.Ends) (happlies : rule.Applies r.nextKind)
    (h : r.Fails (rule.form ++ form) e) : r.Fails (.phrase p :: form) e := by
  cases h with
  | lexical h => exact lexical h
  | integer hmem h => exact integer hmem h
  | halts wanted hupcoming hfits h =>
      refine halts wanted hupcoming hfits (.phrase rule ?_ h)
      rw [← nextKind_eq_headD hr hupcoming]
      exact happlies

end Fails

/-- A phrase that cannot be empty starts with one of its first tokens. -/
theorem halts_of_not_mem {p : Phrase} {next : TokenKind} (hempty : p.canBeEmpty = false)
    (h : next ∉ p.starts) : Halts (.phrase p :: form) [] next := by
  refine .stuck fun rule happlies => ?_
  rcases happlies with hmem | ⟨hform, -⟩
  · exact h (rule.covers.starts next hmem)
  · have hcan := (rule.covers.empty (by rw [hform]; rfl)).2.1
    exact Bool.noConfusion (hempty.symm.trans hcan)

namespace Derives

theorem pure {a : α} {r' : { r' : Reader // P r' }} {R : Values [] → α → Prop}
    (hr' : r'.1.tokens = r.tokens) (h : R () a) : Derives r (.ok (a, r')) [] after R := by
  refine fun _ => ⟨?_, nofun⟩
  rintro _ _ ⟨⟩
  exact ⟨.nil, .nil hr', h⟩

theorem throw {x : Except CompileError (α × { r' : Reader // P r' })} {wanted : Wanted} {token : Token}
    {R : Values form → α → Prop} (hpeek : r.peek = .ok token) (hx : x = .error (unexpected wanted token))
    (h : Halts (form ++ after) [] token.kind) : Derives r x form after R := by
  subst hx
  refine fun _ => ⟨nofun, ?_⟩
  rintro _ ⟨⟩
  obtain ⟨back, hupcoming⟩ := peek_eq_ok hpeek
  have hfirst : r.upcoming = [] ++ token :: back := hupcoming
  exact .halts wanted hfirst (List.forall_mem_nil _) h

theorem mono {x : Except CompileError (α × { r' : Reader // P r' })} {R R' : Values form → α → Prop}
    (h : Derives r x form after R) (hR : ∀ v a, R v a → R' v a) : Derives r x form after R' := by
  refine fun hr => ⟨fun a r' ha => ?_, (h hr).2⟩
  obtain ⟨d, hd, hvalue⟩ := (h hr).1 a r' ha
  exact ⟨d, hd, hR _ a hvalue⟩

/-- The number of the next node does not matter. -/
theorem of_tokens {x : Except CompileError (α × { r' : Reader // P r' })} {R : Values form → α → Prop}
    (h : Derives r' x form after R) (htokens : r'.tokens = r.tokens) : Derives r x form after R := by
  refine fun hr => ⟨fun a r'' ha => ?_, fun e he => ?_⟩
  · obtain ⟨d, ⟨hlist, hending, hguided, hfits⟩, hvalue⟩ := (h (by rwa [Ends, htokens])).1 a r'' ha
    exact ⟨d, ⟨htokens ▸ hlist, htokens ▸ hending, hguided, hfits⟩, hvalue⟩
  · cases (h (by rwa [Ends, htokens])).2 e he with
    | lexical h => exact .lexical (htokens ▸ h)
    | integer hmem h => exact .integer (htokens ▸ hmem) h
    | halts wanted hupcoming hfits h =>
        exact .halts wanted (by rwa [upcoming, ← htokens]) hfits h

theorem bind {x : Except CompileError (α × { r' : Reader // P r' })}
    {f : α × { r' : Reader // P r' } → Except CompileError (β × { r' : Reader // P₁ r' })}
    {s : Symbol} {after' : List Symbol} {R : Values [s] → α → Prop} {R' : Values (s :: form) → β → Prop}
    (hx : Derives r x [s] after R) (hbehind : after <+: form ++ after')
    (hf : ∀ a r' v, R (v, ()) a → Derives r'.1 (f (a, r')) form after' fun vs b => R' (v, vs) b) :
    Derives r (x >>= f) (s :: form) after' R' := by
  refine fun hr => ⟨fun b r'' h => ?_, fun e h => ?_⟩
  · obtain ⟨⟨a, r'⟩, ha, hb⟩ := bind_eq_ok h
    obtain ⟨d, hd, hvalue⟩ := (hx hr).1 a r' ha
    obtain ⟨d', hd', hvalue'⟩ := (hf a r' d.values.1 hvalue (hd.ends hr)).1 b r'' hb
    refine ⟨d.append d', hd.append hd', ?_⟩
    rw [Derivation.values_append]
    exact hvalue'
  · cases hcase : x with
    | error e' =>
        rw [hcase] at h
        cases h
        obtain ⟨tail, htail⟩ := hbehind
        have hfails := ((hx hr).2 e hcase).append tail
        rwa [List.append_assoc, htail] at hfails
    | ok y =>
        obtain ⟨a, r'⟩ := y
        rw [hcase] at h
        obtain ⟨d, hd, hvalue⟩ := (hx hr).1 a r' hcase
        have hfails := Fails.behind hd hr ((hf a r' d.values.1 hvalue (hd.ends hr)).2 e h)
        exact hfails

/-- Returning something made of what has been read. -/
theorem returning {x : Except CompileError (α × { r' : Reader // P r' })} (g : α → β)
    {f : α × { r' : Reader // P r' } → Except CompileError (β × { r' : Reader // P₁ r' })}
    {R : Values form → β → Prop} (hx : Derives r x form after fun v a => R v (g a))
    (hf : ∀ a r', ∃ h, f (a, r') = .ok (g a, ⟨r'.1, h⟩)) : Derives r (x >>= f) form after R := by
  refine fun hr => ⟨fun b r'' h => ?_, fun e h => ?_⟩
  · obtain ⟨⟨a, r'⟩, ha, hb⟩ := bind_eq_ok h
    obtain ⟨_, hok⟩ := hf a r'
    obtain ⟨rfl, rfl⟩ := Prod.mk.inj (Except.ok.inj (hok.symm.trans hb))
    exact (hx hr).1 a r' ha
  · cases hcase : x with
    | error e' =>
        rw [hcase] at h
        cases h
        exact (hx hr).2 e hcase
    | ok y =>
        obtain ⟨a, r'⟩ := y
        obtain ⟨_, hok⟩ := hf a r'
        rw [hcase] at h
        exact nomatch hok.symm.trans h

/-- Reading by a rule that applies. -/
theorem phrase {x : Except CompileError (α × { r' : Reader // P r' })} {p : Phrase} (rule : Rule p)
    {R : Values [.phrase p] → α → Prop} (happlies : rule.Applies r.nextKind)
    (h : Derives r x rule.form after fun vs a => R (rule.build vs, ()) a) :
    Derives r x [.phrase p] after R := by
  refine fun hr => ⟨fun a r' ha => ?_, fun e he => ?_⟩
  · obtain ⟨d, hd, hvalue⟩ := (h hr).1 a r' ha
    exact ⟨.phrase rule d .nil, hd.phrase happlies, hvalue⟩
  · exact .phrase rule hr happlies ((h hr).2 e he)

/-- What is required behind symbols does not matter as long as they can be read. -/
theorem before {x : Except CompileError (α × { r' : Reader // P r' })} {R : Values form → α → Prop}
    (h : Derives r x form [] R) (after : List Symbol) : Derives r x form after R := by
  refine fun hr => ⟨(h hr).1, fun e he => ?_⟩
  have hfails := ((h hr).2 e he).append after
  rwa [List.append_nil] at hfails

/-- Symbols that cannot start with the next token cannot be read, and neither can any others that halt
there. -/
theorem of_not_start {x : Except CompileError (α × { r' : Reader // P r' })}
    {R : Values form → α → Prop} {R' : Values form' → α → Prop} {after' : List Symbol}
    (h : Derives r x form after R) (hform : canBeEmptyOf form = false)
    (hnext : r.nextKind ∉ startsOf form) (hhalts : Halts (form' ++ after') [] r.nextKind) :
    Derives r x form' after' R' := by
  -- A derivation of these symbols has a token, and it is the next one.
  have hstart : ∀ {form' : List Symbol} (d : Derivation (form ++ form')) {token : TokenKind}
      {more : List TokenKind}, token :: more <+: d.kinds → token ∈ startsOf form := by
    rintro form' d token more ⟨tail, htail⟩
    obtain ⟨d₁, d₂, rfl⟩ := d.exists_append
    rcases d₁.kinds_cases with ⟨kind, more', hkinds, hkind⟩ | ⟨-, hcan⟩
    · rw [Derivation.kinds_append, hkinds] at htail
      obtain rfl := (List.cons.inj htail).1
      exact hkind
    · exact Bool.noConfusion (hform.symm.trans hcan)
  refine fun hr => ⟨fun a r' ha => ?_, fun e he => ?_⟩
  · obtain ⟨d, hd, -⟩ := (h hr).1 a r' ha
    rcases d.kinds_cases with ⟨kind, more, hkinds, hkind⟩ | ⟨-, hcan⟩
    · rw [hd.nextKind_eq, hkinds] at hnext
      exact absurd hkind hnext
    · exact Bool.noConfusion (hform.symm.trans hcan)
  · cases (h hr).2 e he with
    | lexical h => exact .lexical h
    | integer hmem h => exact .integer hmem h
    | @halts front back next wanted hupcoming hfits h =>
        have hnextKind := nextKind_eq_headD hr hupcoming
        cases front with
        | nil =>
            have hkind : r.nextKind = next.kind := hnextKind
            rw [hkind] at hhalts
            exact .halts wanted hupcoming hfits hhalts
        | cons token front =>
            obtain ⟨d, hprefix⟩ := h.exists_prefix
            exact absurd (hnextKind ▸ hstart d hprefix) hnext

/-- Reading by the only rule that the next token can fit. -/
theorem only {x : Except CompileError (α × { r' : Reader // P r' })} {p : Phrase} (rule : Rule p)
    {R : Values [.phrase p] → α → Prop} (hempty : p.canBeEmpty = false)
    (hrule : canBeEmptyOf rule.form = false)
    (hstarts : r.nextKind ∈ p.starts → r.nextKind ∈ startsOf rule.form)
    (h : Derives r x rule.form after fun vs a => R (rule.build vs, ()) a) :
    Derives r x [.phrase p] after R := by
  by_cases hmem : r.nextKind ∈ startsOf rule.form
  · exact phrase rule (.inl hmem) h
  · exact h.of_not_start hrule hmem (halts_of_not_mem hempty fun hstart => hmem (hstarts hstart))

/-- Reading a phrase that could be empty because what is required behind it does not come next. -/
theorem present {x : Except CompileError (α × { r' : Reader // P r' })} {p : Phrase}
    (absent rule : Rule p) {R : Values [.phrase p] → α → Prop} {stop : TokenKind}
    (habsent : absent.form = []) (hrule : canBeEmptyOf rule.form = false)
    (hstarts : ∀ kind ∈ p.starts, kind ∈ startsOf rule.form) (hstop : r.nextKind ≠ stop)
    (h : Derives r x rule.form [.token stop] fun vs a => R (rule.build vs, ()) a) :
    Derives r x [.phrase p] [.token stop] R := by
  by_cases hmem : r.nextKind ∈ startsOf rule.form
  · exact phrase rule (.inl hmem) h
  · refine h.of_not_start hrule hmem (.phrase absent ?_ ?_)
    · exact .inr ⟨habsent, fun hstart => hmem (hstarts _ hstart)⟩
    · rw [habsent]
      exact .mismatch hstop

theorem peek {f : Token → Except CompileError (β × { r' : Reader // P₁ r' })}
    {R : Values form → β → Prop}
    (h : ∀ token, r.peek = .ok token → token.kind = r.nextKind → Derives r (f token) form after R) :
    Derives r (r.peek >>= f) form after R := by
  intro hr
  cases hpeek : r.peek with
  | error e =>
      refine ⟨nofun, ?_⟩
      rintro _ ⟨⟩
      exact .lexical (peek_eq_error hpeek)
  | ok token => exact h token hpeek (peek_kind hr hpeek) hr

end Derives

structure Takes (r : Reader) (token : Token) (r' : Reader) : Prop where
  list_eq : r.tokens.list = token :: r'.tokens.list
  ending_eq : r'.tokens.ending = r.tokens.ending

namespace Takes

variable {token : Token}

theorem nextKind_eq (h : r.Takes token r') : r.nextKind = token.kind := by
  rw [nextKind, h.list_eq]
  rfl

theorem follows (h : r.Takes token r') (hkind : token.kind = kind) (hfits : token.Fits) :
    Follows (.token token hkind .nil) r r' where
  list_eq := h.list_eq
  ending_eq := h.ending_eq
  guided := trivial
  fits t hmem := by
    obtain rfl := List.mem_singleton.mp hmem
    exact hfits

end Takes

/-- What becomes of taking the next token if it is selected. -/
theorem accept?_cases {select : TokenKind → Option γ} (hr : r.Ends)
    (hselect : select .endOfFile = none) :
    (∃ e, r.accept? select = .error e ∧ r.tokens.ending = .error e) ∨
      (r.accept? select = .ok none ∧ select r.nextKind = none ∧ ∃ token, r.peek = .ok token) ∨
      ∃ token c r', r.accept? select = .ok (some (token, c, r')) ∧ select token.kind = some c ∧
        r.Takes token r'.1 := by
  obtain ⟨⟨list, ending⟩, n⟩ := r
  cases list with
  | nil =>
      cases ending with
      | error e => exact .inl ⟨e, rfl, rfl⟩
      | ok token => exact .inr (.inl ⟨rfl, hselect, token, rfl⟩)
  | cons token list =>
      cases hc : select token.kind with
      | none => exact .inr (.inl ⟨by simp [accept?, hc], hc, token, rfl⟩)
      | some c =>
          refine .inr (.inr ⟨token, c, ⟨⟨⟨list, ending⟩, n⟩, by simp [size]⟩, ?_, hc, rfl, rfl⟩)
          simp [accept?, hc]

namespace Derives

/-- Going on behind a token. -/
theorem token {x : Except CompileError (α × { r' : Reader // P r' })} {token : Token}
    {R : Values (.token kind :: form) → α → Prop} (htakes : r.Takes token r') (hkind : token.kind = kind)
    (hfits : token.Fits) (h : Derives r' x form after fun vs a => R (token, vs) a) :
    Derives r x (.token kind :: form) after R := by
  have hd := htakes.follows hkind hfits
  refine fun hr => ⟨fun a r'' ha => ?_, fun e he => ?_⟩
  · obtain ⟨d, hd', hvalue⟩ := (h (hd.ends hr)).1 a r'' ha
    exact ⟨_, hd.append hd', hvalue⟩
  · have hfails := Fails.behind hd hr ((h (hd.ends hr)).2 e he)
    exact hfails

/-- Going on behind a sign, which is a phrase of one token. -/
theorem sign {x : Except CompileError (α × { r' : Reader // P r' })} {token : Token} {p : Phrase}
    (rule : Rule p) (parts : Derivation rule.form) (hparts : parts.tokens = [token])
    (hguided : ∀ next, parts.Guided next) (hstart : token.kind ∈ startsOf rule.form)
    {R : Values (.phrase p :: form) → α → Prop} (htakes : r.Takes token r')
    (hfits : token.Fits) (h : Derives r' x form after fun vs a => R (rule.build parts.values, vs) a) :
    Derives r x (.phrase p :: form) after R := by
  have hd : Follows parts r r' :=
    { list_eq := by rw [hparts, htakes.list_eq]; rfl
      ending_eq := htakes.ending_eq
      guided := hguided _
      fits := by rw [hparts]; simpa using hfits }
  have hphrase := hd.phrase (.inl (htakes.nextKind_eq ▸ hstart))
  refine fun hr => ⟨fun a r'' ha => ?_, fun e he => ?_⟩
  · obtain ⟨d, hd', hvalue⟩ := (h (hd.ends hr)).1 a r'' ha
    exact ⟨_, hphrase.append hd', hvalue⟩
  · have hfails := Fails.behind hphrase hr ((h (hd.ends hr)).2 e he)
    exact hfails

theorem accept? {select : TokenKind → Option γ}
    {f : Option (Token × γ × r.Shorter) → Except CompileError (β × { r' : Reader // P₁ r' })}
    {R : Values form → β → Prop} (hselect : select .endOfFile = none)
    (hnone : select r.nextKind = none → Derives r (f none) form after R)
    (hsome : ∀ token c r', select token.kind = some c → r.Takes token r'.1 →
      Derives r (f (some (token, c, r'))) form after R) :
    Derives r (r.accept? select >>= f) form after R := by
  intro hr
  rcases accept?_cases hr hselect with ⟨e, haccept, hending⟩ | ⟨haccept, hc, -⟩ |
    ⟨token, c, r', haccept, hc, htakes⟩
  · rw [haccept]
    refine ⟨nofun, ?_⟩
    rintro _ ⟨⟩
    exact .lexical hending
  · rw [haccept]
    exact hnone hc hr
  · rw [haccept]
    exact hsome token c r' hc htakes hr

end Derives

end Reader

end NestedFun
