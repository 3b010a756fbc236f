import NestedFun.Proofs.InitialContents
import NestedFun.Proofs.Sentences
import NestedFun.Proofs.TextConstants

namespace NestedFun

/-!
# Programs with long constants

A variable may repeat a string constant not even once. Then it takes no storage however long the
constant is, but its encoding is longer than the constant.
-/

/-- A program with a variable that starts with a constant repeated not even once. -/
def idleText (raw : List Char) : List Char :=
  "var s = 0 * ".toList ++ raw ++ "\nfun main()".toList

def longConstant (n : Nat) : List Char := '"' :: (List.replicate n 'a' ++ ['"'])

theorem decodes_longConstant (n : Nat) : Decodes (longConstant n) (List.replicate n 97) := by
  refine ⟨List.replicate n ['a'], ?_, ?_⟩
  · rw [List.flatten_replicate_singleton]
    rfl
  · have ha : ElementCode '"' ['a'] 97 := .plain (by decide) (by decide) (by decide)
    induction n with
    | zero => exact .nil
    | succ n ih => exact .cons ha ih

def idleForms (raw : List Char) : List (TokenKind × List Char) :=
  [(.keyword .kwVar, ['v', 'a', 'r']), (.identifier, ['s']), (.equals, ['=']), (.integer, ['0']),
    (.star, ['*']), (.string, raw), (.keyword .kwFun, ['f', 'u', 'n']),
    (.identifier, ['m', 'a', 'i', 'n']), (.openParen, ['(']), (.closeParen, [')'])]

theorem textForms_idleText {raw : List Char} {codes : List Nat} (h : Decodes raw codes) :
    textForms (idleText raw) = (idleForms raw).map some := by
  obtain ⟨inside, rfl, hread⟩ := h.readLexeme
  have htext : idleText ('"' :: inside) = ['v', 'a', 'r', ' ', 's', ' ', '=', ' ', '0', ' ', '*', ' ']
      ++ '"' :: (inside ++ ['\n', 'f', 'u', 'n', ' ', 'm', 'a', 'i', 'n', '(', ')']) := rfl
  rw [htext]
  simp only [List.cons_append, List.nil_append]
  rw [textForms_cons rfl rfl, textForms_cons rfl rfl, textForms_cons rfl rfl, textForms_cons rfl rfl,
    textForms_cons rfl rfl, textForms_cons rfl (hread _), textForms_cons rfl rfl,
    textForms_cons rfl rfl, textForms_cons rfl rfl, textForms_cons rfl rfl, textForms_nil]
  rfl

theorem string_mem_constantKinds : (TokenKind.string, LiteralKind.string) ∈ constantKinds := by
  decide

section

variable {word name equals count star constant word' name' opened closed : Token}

def idleDerivation (hword : word.kind = .keyword .kwVar) (hname : name.kind = .identifier)
    (hequals : equals.kind = .equals) (hcount : count.kind = .integer) (hstar : star.kind = .star)
    (hconstant : constant.kind = .string) (hword' : word'.kind = .keyword .kwFun)
    (hname' : name'.kind = .identifier) (hopened : opened.kind = .openParen)
    (hclosed : closed.kind = .closeParen) : Derivation [.phrase .definitions] :=
  let repeated : Derivation [.phrase .repeated] :=
    .phrase .times (.token star hstar
      (.phrase (.constant .string .string string_mem_constantKinds) (.token constant hconstant .nil)
        .nil)) .nil
  let main : Derivation [.phrase .definitions] :=
    .phrase .someDefinitions (.phrase .functionDefinition (.token word' hword' (.token name' hname'
      (.token opened hopened (.phrase .noParameter .nil (.token closed hclosed
        (.phrase .noBody .nil .nil)))))) (.phrase .noDefinition .nil .nil)) .nil
  .phrase .someDefinitions (.phrase .variableDefinition (.token word hword (.token name hname
    (.token equals hequals (.phrase .number (.token count hcount repeated)
      (.phrase .lastInitializer .nil .nil))))) main) .nil

end

structure IdleProgram (codes : List Nat) (head : Variable) (main : FunctionHead) : Prop where
  name_eq : head.name.text = "s"
  initializers_eq : ∃ i : Initializer, head.initializers = [i] ∧ i.repeats = 0 ∧
    i.value.words.length = codes.length
  main_eq : main.name.text = "main"
  parameters_eq : main.parameters = []

theorem Program.parse_idleText {raw : List Char} {codes : List Nat} (h : Decodes raw codes) :
    ∃ head main, parse (idleText raw) = .ok [.var head, .func main []] ∧
      IdleProgram codes head main := by
  obtain ⟨tokens, hitems, hforms⟩ := exists_tokens (textForms_idleText h)
  have hfits := fits_of_forms hforms (by simp [idleForms])
  simp only [idleForms, List.map_eq_cons_iff, List.map_eq_nil_iff] at hforms
  obtain ⟨word, _, rfl, hword, name, _, rfl, hname, equals, _, rfl, hequals, count, _, rfl, hcount,
    star, _, rfl, hstar, constant, _, rfl, hconstant, word', _, rfl, hword', name', _, rfl, hname',
    opened, _, rfl, hopened, closed, _, rfl, hclosed, rfl⟩ := hforms
  simp only [Token.form, Prod.mk.injEq] at hword hname hequals hcount hstar
  simp only [Token.form, Prod.mk.injEq] at hconstant hword' hname' hopened hclosed
  let d := idleDerivation hword.1 hname.1 hequals.1 hcount.1 hstar.1 hconstant.1 hword'.1 hname'.1
    hopened.1 hclosed.1
  have htokens : d.tokens = [word, name, equals, count, star, constant, word', name', opened, closed] := by
    rfl
  obtain ⟨program, hparse, hprogram⟩ := parse_of_spells (d := d) ⟨htokens ▸ hitems, htokens ▸ hfits⟩
  rw [Program.unnumbered, definitionsUnnumbered_eq_map] at hprogram
  obtain ⟨first, others, rfl, hfirst, hothers⟩ := List.map_eq_cons_iff.mp hprogram
  obtain ⟨second, others, rfl, hsecond, hothers⟩ := List.map_eq_cons_iff.mp hothers
  obtain rfl := List.map_eq_nil_iff.mp hothers
  obtain ⟨head, rfl, hhead⟩ := Definition.var_of_unnumbered hfirst
  obtain ⟨main, body, rfl, hmain, hbody⟩ := Definition.func_of_unnumbered hsecond
  rw [statementsUnnumbered_eq_map] at hbody
  obtain rfl := List.map_eq_nil_iff.mp hbody
  refine ⟨head, main, hparse, ?_, ?_, ?_, ?_⟩
  · exact (congrArg (fun head : Variable => head.name.text) hhead).trans
      (congrArg String.ofList hname.2)
  · obtain ⟨i, others, hinitializers, hi, hothers⟩ :=
      List.map_eq_cons_iff.mp (congrArg Variable.initializers hhead)
    obtain rfl := List.map_eq_nil_iff.mp hothers
    refine ⟨i, hinitializers, ?_, ?_⟩
    · rw [← i.repeats_unnumbered, hi]
      show Word.ofInt (decimalValue (String.ofList count.lexeme).toList) = 0
      rw [hcount.2]
      rfl
    · have hvalue : i.value.unnumbered = constant.literal .string := congrArg Initializer.value hi
      rw [← i.value.words_unnumbered, hvalue]
      show ((String.ofList (constantChars constant.lexeme)).toList.map Word.ofChar).length = _
      rw [hconstant.2, h.constantChars_eq, String.toList_ofList, List.length_map, List.length_map]
  · exact (congrArg (fun head : FunctionHead => head.name.text) hmain).trans
      (congrArg String.ofList hname'.2)
  · exact List.map_eq_nil_iff.mp (congrArg FunctionHead.parameters hmain)

namespace IdleProgram

variable {codes : List Nat} {head : Variable} {main : FunctionHead}

theorem storage_eq (h : IdleProgram codes head main) : head.storage = 0 := by
  obtain ⟨i, hinitializers, hrepeats, -⟩ := h.initializers_eq
  rw [Variable.storage, hinitializers]
  show i.storage + 0 = 0
  rw [Initializer.storage, hrepeats]
  show 0 * _ * wordSize + 0 = 0
  rw [Nat.zero_mul, Nat.zero_mul]

theorem length_words (h : IdleProgram codes head main) :
    (Contents.ofVariable head).words.length = codes.length + 3 := by
  obtain ⟨i, hinitializers, -, hvalue⟩ := h.initializers_eq
  rw [Contents.ofVariable, hinitializers, List.length_cons, List.flatMap_cons, List.flatMap_nil,
    List.append_nil, Initializer.length_encode, hvalue]

/-- No constant makes a variable too large for the limit of storage if it is never repeated. -/
theorem resolves (h : IdleProgram codes head main) :
    ∃ resolution, Program.resolve [.var head, .func main []] = .ok resolution := by
  have hbind : bindDefinitions [] 0 [.var head, .func main []]
      = .ok ([("main", Definition.binding (.func main [])), ("s", Definition.binding (.var head))], 0) := by
    simp [bindDefinitions, reserve, Definition.name, Definition.storage, h.storage_eq, h.name_eq,
      h.main_eq, bind, Except.bind]
  have hmain : checkMain [("main", Definition.binding (.func main [])),
      ("s", Definition.binding (.var head))] = .ok () := by
    simp [checkMain, Definition.binding, h.parameters_eq]
  have hlinks : ∀ scope, resolveDefinitions [scope] [.var head, .func main []]
      = .ok ({} ++ ({} ++ {})) := by
    intro scope
    simp only [resolveDefinitions, Definition.resolve, h.parameters_eq]
    rfl
  exact ⟨_, (bind_of_ok hbind).trans ((bind_of_ok hmain).trans
    (bind_of_ok (hlinks _)))⟩

end IdleProgram

end NestedFun
