import NestedFun.Proofs.LexicalScoping
import NestedFun.Proofs.Sentences
import NestedFun.Proofs.TextConstants

namespace NestedFun

/-!
# Programs that print a text

A program with a call of `putstr` for a string constant, from its characters to its tree. It keeps the
rules of scopes.
-/

def printing (raw : String) : String := "fun main() = putstr(" ++ raw ++ "), 0"

def Spelled.printing {raw : String} (constant : Spelled raw) : Spelled (printing raw) :=
  literal _ |>.append constant |>.append (literal _)

/-! ## Tokens -/

def printingForms (raw : List Char) : List (TokenKind × List Char) :=
  [(.keyword .kwFun, ['f', 'u', 'n']), (.identifier, ['m', 'a', 'i', 'n']), (.openParen, ['(']),
    (.closeParen, [')']), (.equals, ['=']), (.identifier, ['p', 'u', 't', 's', 't', 'r']),
    (.openParen, ['(']), (.string, raw), (.closeParen, [')']), (.comma, [',']), (.integer, ['0'])]

theorem textForms_printing {raw : String} {codes : List Nat} (h : Decodes raw.toList codes) :
    textForms (printing raw).toList = (printingForms raw.toList).map some := by
  obtain ⟨inside, hraw, hread⟩ := h.readLexeme
  rw [(Spelled.printing ⟨raw.toList, rfl⟩).toList_eq]
  simp only [Spelled.printing, Spelled.append, Spelled.literal, hraw, List.cons_append, List.nil_append]
  -- no token is longer than what stands in front of the constant
  rw [textForms_cons rfl rfl, textForms_cons rfl rfl, textForms_cons rfl rfl, textForms_cons rfl rfl,
    textForms_cons rfl rfl, textForms_cons rfl rfl, textForms_cons rfl rfl,
    textForms_cons rfl (hread _), textForms_cons rfl rfl, textForms_cons rfl rfl,
    textForms_cons rfl rfl, List.dropWhile_nil, textForms_nil, hraw]
  rfl

/-! ## The tree -/

namespace Derivation

/-- An operation with one operand is an operand of a looser operation. -/
def loosened {o inner : Operation} (h : o.tighter? = some inner)
    (d : Derivation [.phrase (.operand inner)]) : Derivation [.phrase (.operand o)] :=
  .phrase (.tighter o inner h)
    (.phrase (.operation inner) (d.append (.phrase (.lastOperand inner) .nil .nil)) .nil) .nil

def primary (rule : Rule .primary) (parts : Derivation rule.form) {form : List Symbol}
    (rest : Derivation form) : Derivation (.phrase (.operation .expression) :: form) :=
  let operand : Derivation [.phrase (.operand .multiplicative)] :=
    .phrase .tightest (.phrase .unsigned
      (.phrase .postfixed (.phrase rule parts (.phrase .lastCaret .nil .nil)) .nil) .nil) .nil
  let loosest : Derivation [.phrase (.operand .expression)] :=
    loosened rfl (loosened rfl (loosened rfl (loosened rfl operand)))
  .phrase (.operation .expression) (loosest.append (.phrase (.lastOperand .expression) .nil .nil)) rest

theorem tokens_primary (rule : Rule .primary) (parts : Derivation rule.form) {form : List Symbol}
    (rest : Derivation form) : (primary rule parts rest).tokens = parts.tokens ++ rest.tokens := by
  simp [primary, loosened, tokens, append]

def constant {kind : TokenKind} {literal : LiteralKind} (h : (kind, literal) ∈ constantKinds)
    {token : Token} (htoken : token.kind = kind) {form : List Symbol} (rest : Derivation form) :
    Derivation (.phrase (.operation .expression) :: form) :=
  primary .literal (.phrase (.constant kind literal h) (.token token htoken .nil) .nil) rest

@[simp] theorem tokens_constant {kind : TokenKind} {literal : LiteralKind}
    (h : (kind, literal) ∈ constantKinds) {token : Token} (htoken : token.kind = kind)
    {form : List Symbol} (rest : Derivation form) :
    (constant h htoken rest).tokens = token :: rest.tokens :=
  tokens_primary _ _ _

section

variable {word name opened closed equals callee opened' text closed' comma zero : Token}

def printingBody (hcallee : callee.kind = .identifier) (hopened' : opened'.kind = .openParen)
    (htext : text.kind = .string) (hclosed' : closed'.kind = .closeParen) (hcomma : comma.kind = .comma)
    (hzero : zero.kind = .integer) : Derivation [.phrase .statements] :=
  let argument : Derivation [.phrase .arguments] :=
    .phrase .someArguments (@constant .string .string (by decide) text htext _
      (.phrase .lastArgument .nil .nil)) .nil
  let called : Derivation [.phrase .called] :=
    .phrase .called (.token opened' hopened' (argument.append (.token closed' hclosed' .nil))) .nil
  let ended : Derivation [.phrase .statement] :=
    .phrase .simple
      (@constant .integer .integer (by decide) zero hzero _ (.phrase .evaluated .nil .nil)) .nil
  .phrase .statements
    (.phrase .simple (primary .named (.token callee hcallee called) (.phrase .evaluated .nil .nil))
      (.phrase .nextStatement
        (.token comma hcomma (ended.append (.phrase .lastStatement .nil .nil))) .nil)) .nil

def parameterless (hword : word.kind = .keyword .kwFun) (hname : name.kind = .identifier)
    (hopened : opened.kind = .openParen) (hclosed : closed.kind = .closeParen)
    (hequals : equals.kind = .equals) (body : Derivation [.phrase .statements]) :
    Derivation [.phrase .definitions] :=
  .phrase .someDefinitions (.phrase .functionDefinition (.token word hword (.token name hname
    (.token opened hopened (.phrase .noParameter .nil (.token closed hclosed (.phrase .someBody
      (.token equals hequals body) .nil)))))) (.phrase .noDefinition .nil .nil)) .nil

@[simp] theorem tokens_printingBody (hcallee : callee.kind = .identifier)
    (hopened' : opened'.kind = .openParen) (htext : text.kind = .string)
    (hclosed' : closed'.kind = .closeParen) (hcomma : comma.kind = .comma)
    (hzero : zero.kind = .integer) :
    (printingBody hcallee hopened' htext hclosed' hcomma hzero).tokens
      = [callee, opened', text, closed', comma, zero] := by
  simp [printingBody, tokens, tokens_primary]

@[simp] theorem tokens_parameterless (hword : word.kind = .keyword .kwFun)
    (hname : name.kind = .identifier) (hopened : opened.kind = .openParen)
    (hclosed : closed.kind = .closeParen) (hequals : equals.kind = .equals)
    (body : Derivation [.phrase .statements]) :
    (parameterless hword hname hopened hclosed hequals body).tokens
      = [word, name, opened, closed, equals] ++ body.tokens := by
  simp [parameterless, tokens]

end

end Derivation

inductive PrintingBody (chars : List Char) : List Statement → Prop
  | intro {evaluated called node ended value : Node} {putstr : Identifier} {text zero : Literal}
      (hname : putstr.text = "putstr") (htext : text.kind = .string)
      (hchars : text.text = String.ofList chars) (hzero : zero.kind = .integer)
      (hdigits : zero.text = String.ofList ['0']) :
      PrintingBody chars [.eval evaluated (.call called putstr [.literal node text]),
        .eval ended (.literal value zero)]

theorem Statement.eval_of_unnumbered {s : Statement} {node : Node} {value : Expression}
    (h : s.unnumbered = .eval node value) :
    ∃ node' value', s = .eval node' value' ∧ value'.unnumbered = value := by
  cases s with
  | eval node' value' => exact ⟨node', value', rfl, (Statement.eval.inj h).2⟩
  | assign | branch | loop | block => cases h

theorem Expression.literal_of_unnumbered {e : Expression} {node : Node} {value : Literal}
    (h : e.unnumbered = .literal node value) :
    ∃ node' value', e = .literal node' value' ∧ value'.unnumbered = value := by
  cases e with
  | literal node' value' => exact ⟨node', value', rfl, (Expression.literal.inj h).2⟩
  | name | call | unary | binary => cases h

theorem Expression.call_of_unnumbered {e argument : Expression} {node : Node} {callee : Identifier}
    (h : e.unnumbered = .call node callee [argument]) :
    ∃ node' callee' argument', e = .call node' callee' [argument'] ∧ callee'.unnumbered = callee ∧
      argument'.unnumbered = argument := by
  cases e with
  | call node' callee' arguments =>
      obtain ⟨-, hcallee, harguments⟩ := Expression.call.inj h
      cases arguments with
      | nil => cases harguments
      | cons argument' others =>
          obtain ⟨hargument, hothers⟩ := List.cons.inj harguments
          cases others with
          | nil => exact ⟨node', callee', argument', rfl, hcallee, hargument⟩
          | cons => cases hothers
  | literal | name | unary | binary => cases h

/-- Statements print a text whatever the numbers of their nodes are. -/
theorem PrintingBody.of_unnumbered {chars : List Char} {body : List Statement}
    (h : PrintingBody chars (statementsUnnumbered body)) : PrintingBody chars body := by
  generalize hbody : statementsUnnumbered body = body' at h
  obtain ⟨hname, htext, hchars, hzero, hdigits⟩ := h
  rw [statementsUnnumbered_eq_map] at hbody
  obtain ⟨printed, body, rfl, hprinted, hbody⟩ := List.map_eq_cons_iff.mp hbody
  obtain ⟨ended, body, rfl, hended, hbody⟩ := List.map_eq_cons_iff.mp hbody
  obtain rfl := List.map_eq_nil_iff.mp hbody
  obtain ⟨_, _, rfl, hcall⟩ := Statement.eval_of_unnumbered hprinted
  obtain ⟨_, _, rfl, hvalue⟩ := Statement.eval_of_unnumbered hended
  obtain ⟨_, _, _, rfl, rfl, hargument⟩ := Expression.call_of_unnumbered hcall
  obtain ⟨_, _, rfl, rfl⟩ := Expression.literal_of_unnumbered hargument
  obtain ⟨_, _, rfl, rfl⟩ := Expression.literal_of_unnumbered hvalue
  exact ⟨hname, htext, hchars, hzero, hdigits⟩

/-- The tokens of a program that prints a string constant are read to its tree. -/
theorem printingBody_values {callee opened text closed comma zero : Token}
    (hcallee : callee.kind = .identifier) (hopened : opened.kind = .openParen)
    (htext : text.kind = .string) (hclosed : closed.kind = .closeParen) (hcomma : comma.kind = .comma)
    (hzero : zero.kind = .integer) (hputstr : callee.lexeme = ['p', 'u', 't', 's', 't', 'r'])
    (hdigits : zero.lexeme = ['0']) : PrintingBody (constantChars text.lexeme)
      (Derivation.printingBody hcallee hopened htext hclosed hcomma hzero).values.1 := by
  refine .intro ?_ rfl rfl rfl (congrArg String.ofList hdigits)
  exact congrArg String.ofList hputstr

/-- The tree of a program that prints a string constant. -/
theorem Program.parse_printing {raw : String} {codes : List Nat} (h : Decodes raw.toList codes) :
    ∃ head body, parse (printing raw).toList = .ok [.func head body] ∧ head.name.text = "main" ∧
      head.parameters = [] ∧ PrintingBody (codes.map Char.ofNat) body := by
  obtain ⟨tokens, hitems, hforms⟩ := exists_tokens (textForms_printing h)
  have hfits := fits_of_forms hforms (by simp [printingForms])
  simp only [printingForms, List.map_eq_cons_iff, List.map_eq_nil_iff] at hforms
  obtain ⟨word, _, rfl, hword, name, _, rfl, hname, opened, _, rfl, hopened, closed, _, rfl, hclosed,
    equals, _, rfl, hequals, callee, _, rfl, hcallee, opened', _, rfl, hopened', text, _, rfl, htext,
    closed', _, rfl, hclosed', comma, _, rfl, hcomma, zero, _, rfl, hzero, rfl⟩ := hforms
  simp only [Token.form, Prod.mk.injEq] at hword hname hopened hclosed hequals
  simp only [Token.form, Prod.mk.injEq] at hcallee hopened' htext hclosed' hcomma hzero
  let body := Derivation.printingBody hcallee.1 hopened'.1 htext.1 hclosed'.1 hcomma.1 hzero.1
  let d := Derivation.parameterless hword.1 hname.1 hopened.1 hclosed.1 hequals.1 body
  have htokens : d.tokens = [word, name, opened, closed, equals, callee, opened', text, closed', comma,
      zero] := by
    rw [Derivation.tokens_parameterless, Derivation.tokens_printingBody]
    rfl
  obtain ⟨own, hparse, hown⟩ := parse_of_spells (d := d) ⟨htokens ▸ hitems, htokens ▸ hfits⟩
  have hbody : PrintingBody (codes.map Char.ofNat) body.values.1 := by
    rw [← h.constantChars_eq, ← htext.2]
    exact printingBody_values _ _ _ _ _ _ hcallee.2 hzero.2
  rw [Program.unnumbered, definitionsUnnumbered_eq_map] at hown
  obtain ⟨definition, others, rfl, hdefinition, hothers⟩ := List.map_eq_cons_iff.mp hown
  obtain rfl := List.map_eq_nil_iff.mp hothers
  obtain ⟨head, body', rfl, hhead, hbody'⟩ := Definition.func_of_unnumbered hdefinition
  refine ⟨head, body', hparse, ?_, ?_, .of_unnumbered (hbody' ▸ hbody)⟩
  · exact (congrArg (fun head : FunctionHead => head.name.text) hhead).trans
      (congrArg String.ofList hname.2)
  · exact List.map_eq_nil_iff.mp (congrArg FunctionHead.parameters hhead)

/-! ## Scopes -/

/-- Declarations keep the rules of scopes wherever they stand. -/
theorem Declares.keepsScopes {ds : List Definition} {names : List (String × Option String)}
    (h : Declares ds names) (env : Env) (depth : Nat) :
    KeepsScopes (definitionsOccurrences env ds) (definitionsFunctions depth ds) (definitionsLets ds)
      (definitionsTargets ds) := by
  induction h with
  | nil => exact keepsScopes_nil
  | @cons head definitions declared others hname hlength hothers ih =>
      refine keepsScopes_append.mpr ⟨⟨nofun, ?_, nofun, nofun⟩, ih⟩
      rintro f hf
      obtain rfl := List.mem_singleton.mp hf
      refine ⟨?_, Nat.zero_le _⟩
      -- a single parameter has no other to share its name with
      have hle : (head.parameters.map fun parameter => parameter.name.text).length ≤ 1 := by
        rw [List.length_map, hlength]
        cases declared.2 <;> simp
      exact List.nodup_iff_count_le_one.mpr fun name => List.count_le_length.trans hle

theorem Declares.variables_eq_nil {ds : List Definition} {names : List (String × Option String)}
    (h : Declares ds names) : ds.filterMap Definition.variable? = [] := by
  induction h with
  | nil => rfl
  | cons _ _ _ ih => exact ih

section

variable {head : FunctionHead} {body : List Statement} {declared : List Definition}

theorem distinct_printing (hname : head.name.text = "main")
    (hdeclared : Declares declared systemNames) :
    Distinct (.func head body :: declared) := by
  rw [Distinct, List.map_cons, hdeclared.names_eq]
  show (head.name.text :: _).Nodup
  rw [hname]
  decide

/-- What `putstr` means in a function without parameters that stands in front of the declarations. -/
theorem find?_putstr (hname : head.name.text = "main") (hparameters : head.parameters = [])
    (hdeclared : Declares declared systemNames) : ∃ callee, callee.name.text = "putstr" ∧
      callee.parameters.length = 1 ∧
      Env.find? [.parameters head, .definitions (.func head body :: declared)] "putstr"
        = some ⟨1, .function callee [], [.definitions (.func head body :: declared)]⟩ := by
  obtain ⟨callee, hmem, hcallee, hlength⟩ :=
    hdeclared.arity ("putstr", some "s") (by simp [systemNames])
  have hlookup : (Region.definitions (.func head body :: declared)).entities.lookup "putstr"
      = some (.function callee []) := by
    refine lookup_of_mem ?_ (List.mem_map.mpr ⟨_, List.mem_cons_of_mem _ hmem, Prod.ext hcallee rfl⟩)
    rw [Region.entities, List.map_map]
    exact distinct_printing hname hdeclared
  refine ⟨callee, hcallee, hlength, ?_⟩
  simp only [Env.find?, Region.entities, hparameters, List.map_nil, List.lookup_nil]
  rw [← Region.entities, hlookup]
  rfl

/-- A program that prints a text keeps the rules of scopes. -/
theorem PrintingBody.scoped {chars : List Char} (hbody : PrintingBody chars body)
    (hname : head.name.text = "main") (hparameters : head.parameters = [])
    (hdeclared : Declares declared systemNames) : Program.Scoped (.func head body :: declared) := by
  obtain ⟨callee, -, hlength, hfind⟩ := @find?_putstr head body declared hname hparameters hdeclared
  have hkeeps := hdeclared.keepsScopes [.definitions (.func head body :: declared)] 0
  refine ⟨keepsScopes_append.mpr ⟨?_, hkeeps⟩, distinct_printing hname hdeclared,
    ⟨head, body, List.mem_cons_self, hname, hparameters⟩, ?_⟩
  · obtain ⟨hputstr, -, -, -, -⟩ := hbody
    rw [← hputstr] at hfind
    refine ⟨?_, ?_, nofun, nofun⟩
    · exact List.forall_mem_cons.mpr ⟨⟨_, callee, [], hfind, rfl, hlength⟩,
        List.forall_mem_cons.mpr ⟨trivial, List.forall_mem_cons.mpr ⟨trivial, nofun⟩⟩⟩
    · rintro f hf
      obtain rfl := List.mem_singleton.mp hf
      exact ⟨by simp [hparameters], Nat.zero_le _⟩
  · rw [List.filterMap_cons]
    show storageOf (declared.filterMap Definition.variable?) ≤ maxStorage
    rw [hdeclared.variables_eq_nil]
    exact Nat.zero_le _

end

/-- A program that prints a string constant is accepted, with the declarations of the system functions
behind it. -/
theorem analyze_printing {raw : String} {codes : List Nat} (h : Decodes raw.toList codes)
    {source : Source} (hsource : source.contents = printing raw) : ∃ head body declared resolution,
      analyze source.withSystemDeclarations = .ok ⟨.func head body :: declared, resolution⟩ ∧
        head.name.text = "main" ∧ head.parameters = [] ∧ PrintingBody (codes.map Char.ofNat) body ∧
        Declares declared systemNames := by
  obtain ⟨head, body, hparse, hname, hparameters, hbody⟩ := Program.parse_printing h
  obtain ⟨cs, hcontents, hall⟩ := source.toList_withSystemDeclarations
  have hcs : (printing raw).toList = cs := by
    rw [← hsource]
    refine hcontents.resolve_right fun hline => ?_
    have hlast := congrArg List.getLast? hline
    let spelled : Spelled (printing raw) := .printing ⟨raw.toList, rfl⟩
    have hzero : spelled.chars.getLast? = some '0' := List.getLast?_append.trans rfl
    rw [hsource, spelled.toList_eq, List.getLast?_concat, hzero] at hlast
    exact absurd hlast (by decide)
  rw [hcs] at hparse
  obtain ⟨declared, hparse', hdeclared⟩ :=
    (Program.parse_append ending_systemDeclarations forms_systemDeclarations cs).1 _ hparse
  have hdeclares := Declares.of_declared hdeclared
  obtain ⟨resolution, hresolution⟩ :=
    (Program.resolve_settles _).iff.mpr (hbody.scoped hname hparameters hdeclares)
  refine ⟨head, body, declared, resolution, ?_, hname, hparameters, hbody, hdeclares⟩
  rw [analyze, hall, hparse']
  exact bind_of_ok hresolution

end NestedFun
