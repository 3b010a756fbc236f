import NestedFun.Compiler
import NestedFun.Proofs.SystemCalls
import NestedFun.Proofs.TokenForms

namespace NestedFun

/-!
# Declarations of the system functions

A program that was read from a text with the declarations of the system functions behind it ends in
these declarations: no definition of the text itself reaches into them.
-/

/-! ## Lexing line by line -/

/-- A line feed ends a comment, so what is behind it is skipped as at the start of a text. -/
theorem unskipped_append (comment : Bool) (cs rest : List Char) :
    unskipped comment (cs ++ '\n' :: rest) = match unskipped comment cs with
      | [] => unskipped false rest
      | c :: cs' => c :: cs' ++ '\n' :: rest := by
  induction cs generalizing comment with
  | nil =>
      cases comment
      · simp only [List.nil_append, unskipped]
        rw [if_pos (by decide)]
      · simp [unskipped]
  | cons c cs ih =>
      cases comment
      · simp only [List.cons_append, unskipped]
        split
        · exact ih false
        · split
          · exact ih true
          · rfl
      · exact ih _

def Token.form (token : Token) : TokenKind × List Char := (token.kind, token.lexeme)

def itemForm (item : Except CompileError Token) : Option (TokenKind × List Char) :=
  item.toOption.map Token.form

theorem Cursor.next_form {c₁ c₂ : Cursor}
    (h : unskipped false c₁.rest = unskipped false c₂.rest) :
    itemForm c₁.next.1 = itemForm c₂.next.1 ∧ c₁.next.2.rest = c₂.next.2.rest := by
  unfold next
  rw [h]
  cases unskipped false c₂.rest with
  | nil => exact ⟨rfl, rfl⟩
  | cons c cs =>
      simp only
      cases (readLexeme c cs).result with
      | ok kind => exact ⟨rfl, rfl⟩
      | error e => exact ⟨rfl, rfl⟩

theorem Cursor.scan_nil {cursor : Cursor} (h : unskipped false cursor.rest = []) :
    cursor.scan.items = [] := by
  rw [scan]
  split
  · rfl
  · rename_i heq
    rw [h] at heq
    cases heq

theorem Cursor.scan_cons {cursor : Cursor} {c : Char} {cs : List Char}
    (h : unskipped false cursor.rest = c :: cs) :
    cursor.scan.items = cursor.next.1 :: cursor.next.2.scan.items := by
  rw [scan]
  split
  · rename_i heq
    rw [h] at heq
    cases heq
  · rfl

/-- What lexing finds does not depend on the position. -/
theorem Cursor.scan_forms {n : Nat} {c₁ c₂ : Cursor} (hn : c₁.rest.length ≤ n)
    (h : unskipped false c₁.rest = unskipped false c₂.rest) :
    c₁.scan.items.map itemForm = c₂.scan.items.map itemForm := by
  induction n generalizing c₁ c₂ with
  | zero =>
      have hnil : unskipped false c₁.rest = [] := by
        rw [List.length_eq_zero_iff.mp (Nat.le_zero.mp hn)]
        rfl
      rw [scan_nil hnil, scan_nil (h ▸ hnil)]
  | succ n ih =>
      cases hu : unskipped false c₁.rest with
      | nil => rw [scan_nil hu, scan_nil (h ▸ hu)]
      | cons c cs =>
          have hlt := c₁.next_rest_lt (by rw [hu]; simp)
          obtain ⟨hform, hrest⟩ := next_form h
          have htail := @ih c₁.next.2 c₂.next.2 (by omega) (by rw [hrest])
          have hu₂ : unskipped false c₂.rest = c :: cs := by rw [← h, hu]
          rw [scan_cons hu, scan_cons hu₂, List.map_cons, List.map_cons, hform, htail]

/-- Lines without lexical errors are lexed apart from the lines behind them. -/
theorem Cursor.scan_append {n : Nat} {cursor : Cursor} {cs rest : List Char}
    (hn : cs.length ≤ n) (hcursor : cursor.rest = cs ++ '\n' :: rest)
    (hok : ∀ item ∈ cursor.scan.items, ∃ token, item = .ok token) :
    ∃ front back, cursor.scan.items = front ++ back ∧
      back.map itemForm = (Cursor.start rest).scan.items.map itemForm := by
  induction n generalizing cursor cs with
  | zero =>
      have hcs := List.length_eq_zero_iff.mp (Nat.le_zero.mp hn)
      have hu : unskipped false cursor.rest = unskipped false rest := by
        rw [hcursor, unskipped_append, hcs]
        rfl
      exact ⟨[], cursor.scan.items, rfl, scan_forms (Nat.le_refl _) hu⟩
  | succ n ih =>
      have happend := unskipped_append false cs rest
      rw [← hcursor] at happend
      cases hu : unskipped false cs with
      | nil =>
          rw [hu] at happend
          exact ⟨[], cursor.scan.items, rfl, scan_forms (Nat.le_refl _) happend⟩
      | cons c cs' =>
          rw [hu] at happend
          have hscan := scan_cons happend
          obtain ⟨token, htoken⟩ := hok cursor.next.1 (by rw [hscan]; exact List.mem_cons_self)
          have hline := unskipped_false_head false hu
          have hsplits := readLexeme_splits hline (cs' ++ '\n' :: rest)
          have hle := readLexeme_rest_le c (cs' ++ '\n' :: rest)
          have hnext : cursor.next.2.rest = (readLexeme c (cs' ++ '\n' :: rest)).rest ∧
              ∃ kind, (readLexeme c (cs' ++ '\n' :: rest)).result = .ok kind := by
            unfold next at htoken ⊢
            rw [happend] at htoken ⊢
            simp only [List.cons_append] at htoken ⊢
            cases hr : (readLexeme c (cs' ++ '\n' :: rest)).result with
            | ok kind => exact ⟨rfl, kind, rfl⟩
            | error e =>
                simp only [hr] at htoken
                cases htoken
          obtain ⟨hrest, kind, hkind⟩ := hnext
          have hnewline := hsplits.oneLine kind hkind
          have heq := hsplits.append_eq
          rw [← List.cons_append] at heq
          rcases List.append_eq_append_iff.mp heq with ⟨x, hx, hrest'⟩ | ⟨x, hx, hrest'⟩
          -- the lexeme ends inside the lines: what is left of them is shorter
          · have hle' := unskipped_length_le false cs
            rw [hu, hx] at hle'
            rw [hrest', List.length_append, List.length_append] at hle
            have hxs := congrArg List.length hx
            simp only [List.length_cons, List.length_append] at hxs hle'
            obtain ⟨front, back, hfront, hback⟩ := @ih cursor.next.2 x (by omega) (by rw [hrest, hrest'])
              fun item hitem => hok item (by rw [hscan]; exact List.mem_cons_of_mem _ hitem)
            exact ⟨cursor.next.1 :: front, back, by rw [hscan, hfront]; rfl, hback⟩
          · cases x with
            | nil =>
                simp only [List.nil_append] at hrest'
                obtain ⟨front, back, hfront, hback⟩ := @ih cursor.next.2 [] (by simp) (by rw [hrest, ← hrest']; rfl)
                  fun item hitem => hok item (by rw [hscan]; exact List.mem_cons_of_mem _ hitem)
                exact ⟨cursor.next.1 :: front, back, by rw [hscan, hfront]; rfl, hback⟩
            | cons d x =>
                simp only [List.cons_append, List.cons.injEq] at hrest'
                rw [hx, ← hrest'.1] at hnewline
                simp at hnewline

/-! ## Tokens of a text without errors -/

theorem Tokens.ofItems_ok {stop : Nat} {items : List (Except CompileError Token)} {token : Token}
    (h : (ofItems stop items).ending = .ok token) :
    items = (ofItems stop items).list.map .ok := by
  induction items with
  | nil => rfl
  | cons item items ih =>
      cases item with
      | error e => simp [ofItems] at h
      | ok t =>
          have htail := ih h
          rw [ofItems, List.map_cons, ← htail]

theorem map_form_of_items {tokens : List Token} :
    (tokens.map Except.ok).map itemForm = (tokens.map Token.form).map some := by
  induction tokens with
  | nil => rfl
  | cons token tokens ih =>
      simp only [List.map_cons, ih]
      rfl

/-- The tokens of two pieces of text with a line feed between them. -/
theorem Tokens.ofText_append {cs rest : List Char} {token ending : Token}
    (h : (ofText (cs ++ '\n' :: rest)).ending = .ok token)
    (hrest : (ofText rest).ending = .ok ending) :
    ∃ front back, (ofText (cs ++ '\n' :: rest)).list = front ++ back ∧
      back.map Token.form = (ofText rest).list.map Token.form := by
  have hitems := ofItems_ok h
  have hitems' := ofItems_ok hrest
  have hok : ∀ item ∈ (Cursor.start (cs ++ '\n' :: rest)).scan.items,
      ∃ token, item = .ok token := by
    intro item hitem
    rw [hitems] at hitem
    obtain ⟨t, _, ht⟩ := List.mem_map.mp hitem
    exact ⟨t, ht.symm⟩
  have hrest' : (Cursor.start (cs ++ '\n' :: rest)).rest = cs ++ '\n' :: rest := rfl
  obtain ⟨front, back, hfront, hback⟩ := Cursor.scan_append (Nat.le_refl _) hrest' hok
  rw [hitems] at hfront
  obtain ⟨front', back', hlist, hfront', hback'⟩ := List.map_eq_append_iff.mp hfront
  refine ⟨front', back', hlist, ?_⟩
  rw [hitems', ← hback', map_form_of_items, map_form_of_items] at hback
  exact List.map_injective_iff.mpr (Option.some_injective _) hback

/-! ## Reading declarations -/

def systemNames : List (String × Option String) :=
  [("exit", some "code"), ("getint", none), ("putint", some "n"), ("getchr", none),
    ("putchr", some "c"), ("putstr", some "s"), ("new", some "size"), ("del", some "ptr")]

def declarationForms (declared : String × Option String) : List (TokenKind × List Char) :=
  [(.keyword .kwFun, "fun".toList), (.identifier, declared.1.toList), (.openParen, ['('])]
    ++ (declared.2.toList.map fun name => (.identifier, name.toList)) ++ [(.closeParen, [')'])]

/-- The characters of a text one by one. It takes long to get them from a text that is put together
from others. -/
structure Spelled (text : String) where
  chars : List Char
  toList_eq : text.toList = chars

namespace Spelled

def literal (cs : List Char) : Spelled (String.ofList cs) := ⟨cs, String.toList_ofList⟩

def append {a b : String} (x : Spelled a) (y : Spelled b) : Spelled (a ++ b) :=
  ⟨x.chars ++ y.chars, by rw [String.toList_append, x.toList_eq, y.toList_eq]⟩

def declarations : Spelled systemDeclarations :=
  literal _ |>.append (literal _) |>.append (literal _) |>.append (literal _) |>.append (literal _)
    |>.append (literal _) |>.append (literal _) |>.append (literal _) |>.append (literal _)

end Spelled

theorem forms_systemDeclarations :
    (Tokens.ofText systemDeclarations.toList).list.map Token.form
      = systemNames.flatMap declarationForms := by
  rw [Spelled.declarations.toList_eq]
  decide +kernel

theorem ending_systemDeclarations :
    ∃ token, (Tokens.ofText systemDeclarations.toList).ending = .ok token := by
  rw [Spelled.declarations.toList_eq]
  have h : (Tokens.ofText Spelled.declarations.chars).ending.toOption.isSome = true := by
    decide +kernel
  obtain ⟨token, htoken⟩ := Option.isSome_iff_exists.mp h
  exact ⟨token, toOption_eq_some htoken⟩

namespace Reader

theorem accept?_cons {β : Type} {select : TokenKind → Option β} {token : Token} {b : β}
    (rest : List Token) (ending : Except CompileError Token) (n : NodeId)
    (h : select token.kind = some b) :
    ∃ hlt, accept? ⟨⟨token :: rest, ending⟩, n⟩ select
      = .ok (some (token, b, ⟨⟨⟨rest, ending⟩, n⟩, hlt⟩)) := by
  refine ⟨by simp [size], ?_⟩
  simp only [accept?, h]

theorem accept?_cons_none {β : Type} {select : TokenKind → Option β} {token : Token}
    {rest : List Token} {ending : Except CompileError Token} {n : NodeId}
    (h : select token.kind = none) :
    accept? ⟨⟨token :: rest, ending⟩, n⟩ select = .ok none := by
  simp only [accept?, h]

theorem expect_cons {kind : TokenKind} {token : Token} (rest : List Token)
    (ending : Except CompileError Token) (n : NodeId) (h : token.kind = kind) :
    ∃ hlt, expect ⟨⟨token :: rest, ending⟩, n⟩ kind = .ok (token, ⟨⟨⟨rest, ending⟩, n⟩, hlt⟩) := by
  have honly : only kind token.kind = some () := by simp [only, h]
  obtain ⟨hlt, haccept⟩ := accept?_cons rest ending n honly
  refine ⟨hlt, ?_⟩
  have hrequire : require ⟨⟨token :: rest, ending⟩, n⟩ (.token kind) (only kind)
      = .ok ((token, ()), ⟨⟨⟨rest, ending⟩, n⟩, hlt⟩) := bind_of_ok haccept
  exact bind_of_ok hrequire

theorem identifier_cons {token : Token} (rest : List Token)
    (ending : Except CompileError Token) (n : NodeId) (h : token.kind = .identifier) :
    ∃ hlt, identifier ⟨⟨token :: rest, ending⟩, n⟩
      = .ok (⟨⟨n, token.span⟩, String.ofList token.lexeme⟩,
          ⟨⟨⟨rest, ending⟩, n + 1⟩, hlt⟩) := by
  obtain ⟨hlt, hexpect⟩ := expect_cons rest ending n h
  exact ⟨hlt, bind_of_ok hexpect⟩

def EndsDeclaration (tokens : Tokens) : Prop :=
  match tokens.list with
  | [] => ∃ token, tokens.ending = .ok token
  | token :: _ => token.kind ≠ .equals

theorem functionBody_none {tokens : Tokens} {n : NodeId} (h : EndsDeclaration tokens) :
    functionBody ⟨tokens, n⟩ = .ok ([], ⟨⟨tokens, n⟩, Nat.le_refl _⟩) := by
  obtain ⟨list, ending⟩ := tokens
  rw [functionBody]
  cases list with
  | nil =>
      obtain ⟨token, hending⟩ := h
      simp only at hending
      have haccept : accept? ⟨⟨[], ending⟩, n⟩ (only .equals) = .ok none := by
        simp [accept?, hending, Except.map]
      exact bind_of_ok haccept
  | cons token rest =>
      have hne : token.kind ≠ .equals := h
      have haccept : accept? ⟨⟨token :: rest, ending⟩, n⟩ (only .equals) = .ok none :=
        accept?_cons_none (by simp [only, hne])
      exact bind_of_ok haccept

/-- The parameters of a declaration. -/
theorem parameters_declared {name : Option String} {taken : List Token} {close : Token}
    (rest : List Token) (ending : Except CompileError Token) (n : NodeId)
    (htaken : taken.map Token.form = name.toList.map fun name => (.identifier, name.toList))
    (hclose : close.kind = .closeParen) :
    ∃ parameters n' hle, (parameters.map fun p : Parameter => p.name.text) = name.toList ∧
      Reader.parameters ⟨⟨taken ++ close :: rest, ending⟩, n⟩
        = .ok (parameters, ⟨⟨⟨close :: rest, ending⟩, n'⟩, hle⟩) := by
  cases name with
  | none =>
      have hnil : taken = [] := by simpa using htaken
      subst hnil
      refine ⟨[], n, Nat.le_refl _, rfl, ?_⟩
      simp [Reader.parameters, peek, hclose, bind, Except.bind, pure, Except.pure]
  | some name =>
      cases taken with
      | nil => simp at htaken
      | cons token taken =>
          simp only [List.map_cons, Option.toList_some, List.map_nil, List.cons.injEq,
            List.map_eq_nil_iff] at htaken
          obtain ⟨hform, rfl⟩ := htaken
          have hkind : token.kind = .identifier := congrArg Prod.fst hform
          have hname : String.ofList token.lexeme = name := by
            rw [show token.lexeme = name.toList from congrArg Prod.snd hform, String.ofList_toList]
          obtain ⟨hlt, hidentifier⟩ := identifier_cons (close :: rest) ending n hkind
          have hparameter : parameter ⟨⟨token :: close :: rest, ending⟩, n⟩ = .ok
              (⟨⟨n + 1, token.span⟩, ⟨⟨n, token.span⟩, String.ofList token.lexeme⟩⟩,
                ⟨⟨⟨close :: rest, ending⟩, n + 2⟩, hlt⟩) := bind_of_ok hidentifier
          have hnone : accept? ⟨⟨close :: rest, ending⟩, n + 2⟩ (only .comma) = .ok none :=
            accept?_cons_none (by simp [only, hclose])
          have htail : commaTail parameter ⟨⟨close :: rest, ending⟩, n + 2⟩
              = .ok ([], ⟨⟨⟨close :: rest, ending⟩, n + 2⟩, Nat.le_refl _⟩) := by
            rw [commaTail]
            exact bind_of_ok hnone
          have hlist : commaList parameter ⟨⟨token :: close :: rest, ending⟩, n⟩ = .ok
              ([⟨⟨n + 1, token.span⟩, ⟨⟨n, token.span⟩, String.ofList token.lexeme⟩⟩],
                ⟨⟨⟨close :: rest, ending⟩, n + 2⟩, hlt⟩) :=
            (bind_of_ok hparameter).trans (bind_of_ok htail)
          have hpeek : peek ⟨⟨token :: close :: rest, ending⟩, n⟩ = .ok token := rfl
          refine ⟨[⟨⟨n + 1, token.span⟩, ⟨⟨n, token.span⟩, String.ofList token.lexeme⟩⟩], n + 2,
            Nat.le_of_lt hlt, congrArg (fun name => [name]) hname, ?_⟩
          show Reader.parameters ⟨⟨token :: close :: rest, ending⟩, n⟩ = _
          rw [Reader.parameters, bind_of_ok hpeek]
          simp only [hkind]
          exact bind_of_ok hlist

/-- A declaration is read as a function without a body. -/
theorem definition_declared {declared : String × Option String} {taken rest : List Token}
    {ending : Except CompileError Token} {n : NodeId}
    (htaken : taken.map Token.form = declarationForms declared)
    (hends : EndsDeclaration ⟨rest, ending⟩) :
    ∃ head n' hlt, head.name.text = declared.1 ∧
      (head.parameters.map fun p => p.name.text) = declared.2.toList ∧
      definition ⟨⟨taken ++ rest, ending⟩, n⟩
        = .ok (.func head [], ⟨⟨⟨rest, ending⟩, n'⟩, hlt⟩) := by
  obtain ⟨front, last, rfl, hfront, hlast⟩ := List.map_eq_append_iff.mp htaken
  obtain ⟨start, parameterTokens, rfl, hstart, hparameters⟩ := List.map_eq_append_iff.mp hfront
  obtain ⟨word, start, rfl, hword, hstart⟩ := List.map_eq_cons_iff.mp hstart
  obtain ⟨name, start, rfl, hname, hstart⟩ := List.map_eq_cons_iff.mp hstart
  obtain ⟨paren, start, rfl, hparen, hstart⟩ := List.map_eq_cons_iff.mp hstart
  obtain rfl := List.map_eq_nil_iff.mp hstart
  obtain ⟨close, last, rfl, hclose, hlast⟩ := List.map_eq_cons_iff.mp hlast
  obtain rfl := List.map_eq_nil_iff.mp hlast
  have hwordKind : word.kind = .keyword .kwFun := congrArg Prod.fst hword
  have hnameKind : name.kind = .identifier := congrArg Prod.fst hname
  have hnameText : String.ofList name.lexeme = declared.1 := by
    rw [show name.lexeme = declared.1.toList from congrArg Prod.snd hname, String.ofList_toList]
  have hparenKind : paren.kind = .openParen := congrArg Prod.fst hparen
  have hcloseKind : close.kind = .closeParen := congrArg Prod.fst hclose
  obtain ⟨h₁, hread₁⟩ := expect_cons (name :: paren :: (parameterTokens ++ close :: rest)) ending n
    hwordKind
  obtain ⟨h₂, hread₂⟩ := identifier_cons (paren :: (parameterTokens ++ close :: rest)) ending n
    hnameKind
  obtain ⟨h₃, hread₃⟩ := expect_cons (parameterTokens ++ close :: rest) ending (n + 1) hparenKind
  obtain ⟨parameters, m, h₄, hnames, hread₄⟩ := parameters_declared rest ending (n + 1)
    hparameters hcloseKind
  obtain ⟨h₅, hread₅⟩ := expect_cons rest ending m hcloseKind
  have hread₆ := functionBody_none (n := m) hends
  have hpeek : peek ⟨⟨word :: name :: paren :: (parameterTokens ++ close :: rest), ending⟩, n⟩
      = .ok word := rfl
  have hlist : [word, name, paren] ++ parameterTokens ++ [close] ++ rest
      = word :: name :: paren :: (parameterTokens ++ close :: rest) := by simp
  rw [hlist]
  refine ⟨⟨⟨m, ⟨word.span.start, close.span.stop⟩⟩, ⟨⟨n, name.span⟩, String.ofList name.lexeme⟩,
    parameters⟩, m + 1, ?_, hnameText, hnames, ?_⟩
  · show rest.length < (word :: name :: paren :: (parameterTokens ++ close :: rest)).length
    simp only [List.length_append, List.length_cons]
    omega
  · rw [definition, bind_of_ok hpeek]
    simp only [hwordKind]
    rw [bind_of_ok hread₁]
    simp only
    rw [bind_of_ok hread₂]
    simp only
    rw [bind_of_ok hread₃]
    simp only
    rw [bind_of_ok hread₄]
    simp only
    rw [bind_of_ok hread₅]
    simp only
    rw [bind_of_ok hread₆]
    rfl

end Reader

def Definition.declared? : Definition → Option (String × List String)
  | .func head [] => some (head.name.text, head.parameters.map fun p => p.name.text)
  | _ => none

/-- Definitions without bodies that have the given names and numbers of parameters. -/
inductive Declares : List Definition → List (String × Option String) → Prop
  | nil : Declares [] []
  | cons {head : FunctionHead} {definitions : List Definition} {declared : String × Option String}
      {others : List (String × Option String)} (hname : head.name.text = declared.1)
      (hlength : head.parameters.length = declared.2.toList.length)
      (hothers : Declares definitions others) :
      Declares (.func head [] :: definitions) (declared :: others)

theorem Declares.names_eq {ds : List Definition} {names : List (String × Option String)}
    (h : Declares ds names) : ds.map (fun d => d.name.text) = names.map Prod.fst := by
  induction h with
  | nil => rfl
  | cons hname _ _ ih =>
      rw [List.map_cons, List.map_cons, ih]
      exact congrArg (· :: _) hname

theorem Declares.of_declared {ds : List Definition} {names : List (String × Option String)}
    (h : ds.map Definition.declared? = names.map fun declared =>
      some (declared.1, declared.2.toList)) : Declares ds names := by
  induction names generalizing ds with
  | nil =>
      obtain rfl := List.map_eq_nil_iff.mp h
      exact .nil
  | cons declared others ih =>
      rw [List.map_cons] at h
      obtain ⟨d, ds, rfl, hd, hds⟩ := List.map_eq_cons_iff.mp h
      cases d with
      | var head => cases hd
      | func head body =>
          cases body with
          | cons first body => cases hd
          | nil =>
              simp only [Definition.declared?, Option.some.injEq, Prod.mk.injEq] at hd
              refine .cons hd.1 ?_ (ih hds)
              rw [← hd.2, List.length_map]

namespace Reader

theorem endsDeclaration_declared {names : List (String × Option String)} {taken : List Token}
    {ending : Except CompileError Token} (hending : ∃ token, ending = .ok token)
    (htaken : taken.map Token.form = names.flatMap declarationForms) :
    EndsDeclaration ⟨taken, ending⟩ := by
  cases names with
  | nil =>
      obtain rfl : taken = [] := by simpa using htaken
      exact hending
  | cons declared others =>
      rw [List.flatMap_cons, declarationForms] at htaken
      obtain ⟨word, taken, rfl, hword, _⟩ := List.map_eq_cons_iff.mp htaken
      have hkind : word.kind = .keyword .kwFun := congrArg Prod.fst hword
      show word.kind ≠ .equals
      rw [hkind]
      decide

/-- Declarations up to the end of the file are read as such. -/
theorem definitions_declared (names : List (String × Option String)) :
    ∀ (taken : List Token) (ending : Except CompileError Token) (n : NodeId),
      (∃ token, ending = .ok token ∧ token.kind = .endOfFile) →
      taken.map Token.form = names.flatMap declarationForms →
      ∃ ds r', definitions ⟨⟨taken, ending⟩, n⟩ = .ok (ds, r') ∧
        ds.map Definition.declared? = names.map fun declared =>
          some (declared.1, declared.2.toList) := by
  induction names with
  | nil =>
      rintro taken ending n ⟨token, rfl, hkind⟩ htaken
      obtain rfl : taken = [] := by simpa using htaken
      have hpeek : peek ⟨⟨[], .ok token⟩, n⟩ = .ok token := rfl
      refine ⟨[], ⟨⟨[], .ok token⟩, n⟩, ?_, rfl⟩
      rw [definitions, bind_of_ok hpeek]
      exact if_pos hkind
  | cons declared others ih =>
      rintro taken ending n ⟨token, htoken, hkind⟩ htaken
      rw [List.flatMap_cons] at htaken
      obtain ⟨front, back, rfl, hfront, hback⟩ := List.map_eq_append_iff.mp htaken
      obtain ⟨head, m, hlt, hname, hparameters, hdefinition⟩ := definition_declared (n := n) hfront
        (endsDeclaration_declared ⟨token, htoken⟩ hback)
      obtain ⟨ds, r', hds, hothers⟩ := ih back ending m ⟨token, htoken, hkind⟩ hback
      obtain ⟨word, front, rfl, hword, -⟩ := List.map_eq_cons_iff.mp hfront
      have hwordKind : word.kind = .keyword .kwFun := congrArg Prod.fst hword
      have hpeek : peek ⟨⟨word :: front ++ back, ending⟩, n⟩ = .ok word := rfl
      refine ⟨.func head [] :: ds, r', ?_, ?_⟩
      · rw [definitions, bind_of_ok hpeek]
        refine (if_neg (by rw [hwordKind]; decide)).trans ((bind_of_ok hdefinition).trans ?_)
        exact bind_of_ok hds
      · rw [List.map_cons, List.map_cons, hothers, Definition.declared?, hname, hparameters]

/-- Reading definitions ends at the end of the file. -/
theorem definitions_end (r : Reader) : ∀ ds (r' : Reader), (∀ t ∈ r.tokens.list, t.Good) →
    definitions r = .ok (ds, r') →
      ∃ token, r.tokens.ending = .ok token ∧ token.kind = .endOfFile := by
  induction r using definitions.induct with
  | case1 r ih =>
      intro ds r' hgood h
      cases definitions_read h with
      | @last token hpeek hend =>
          cases hlist : r.tokens.list with
          | nil =>
              simp only [peek, hlist] at hpeek
              exact ⟨token, hpeek, hend⟩
          | cons t rest =>
              simp only [peek, hlist, Except.ok.injEq] at hpeek
              exact absurd (hpeek ▸ hend) (hgood t (by rw [hlist]; exact List.mem_cons_self)).notEnd
      | @more _ others r₁ _ hfirst hothers =>
          obtain ⟨_, _, hreads, -⟩ := definition_ok hfirst
          obtain ⟨token, htoken, hkind⟩ := ih r₁.1 r₁.2 others r'
            (fun t ht => hgood t (hreads.mem ht)) hothers
          exact ⟨token, hreads.ending_eq ▸ htoken, hkind⟩

/-- No definition reaches from before a word `fun` without `in` to behind it. -/
theorem definitions_append (r : Reader) : ∀ (front : List Token) (word : Token)
    (back : List Token) ds (r' : Reader), (∀ t ∈ r.tokens.list, t.Good) →
    r.tokens.list = front ++ word :: back → word.kind = .keyword .kwFun →
    (∀ t ∈ word :: back, t.kind ≠ .keyword .kwIn) → definitions r = .ok (ds, r') →
      ∃ ds₁ ds₂ n, ds = ds₁ ++ ds₂ ∧
        definitions ⟨⟨word :: back, r.tokens.ending⟩, n⟩ = .ok (ds₂, r') := by
  induction r using definitions.induct with
  | case1 r ih =>
      intro front word back ds r' hgood hlist hword hin h
      cases front with
      | nil => exact ⟨[], ds, r.nextId, rfl, by rw [← List.nil_append (word :: back), ← hlist]; exact h⟩
      | cons token front =>
          cases definitions_read h with
          | last hpeek hend =>
              simp only [peek, hlist, List.cons_append, Except.ok.injEq] at hpeek
              exact absurd (hpeek ▸ hend)
                (hgood token (by rw [hlist]; exact List.mem_cons_self)).notEnd
          | @more first others r₁ _ hfirst hothers =>
              obtain ⟨_, _, hreads, hclosed, -⟩ := definition_ok hfirst
              -- Definitions that start in front of the word go on to it.
              have hgoes : ∀ x, r₁.1.tokens.list = x ++ word :: back → ∃ ds₁ ds₂ n,
                  first :: others = ds₁ ++ ds₂ ∧
                    definitions ⟨⟨word :: back, r.tokens.ending⟩, n⟩ = .ok (ds₂, r') := by
                intro x hx
                obtain ⟨ds₁, ds₂, n, rfl, hds⟩ := ih r₁.1 r₁.2 x word back others r'
                  (fun t ht => hgood t (hreads.mem ht)) hx hword hin hothers
                exact ⟨first :: ds₁, ds₂, n, rfl, by rw [← hreads.ending_eq]; exact hds⟩
              have heq := hreads.list_eq
              rw [hlist, List.cons_append, List.cons_append] at heq
              rcases List.append_eq_append_iff.mp (List.cons.inj heq).2 with
                ⟨x, hx, hrest⟩ | ⟨x, hx, hrest⟩
              · cases x with
                | nil => exact hgoes [] hrest.symm
                | cons u x =>
                    simp only [List.cons_append, List.cons.injEq] at hrest
                    obtain ⟨rfl, hback⟩ := hrest
                    obtain ⟨v, hv, hkind⟩ := hclosed front word x hx hword
                    exact absurd hkind (hin v (by rw [hback]; simp [hv]))
              · exact hgoes x hrest

end Reader

theorem getLast?_eq_some {α : Type} {xs : List α} {x : α} (h : xs.getLast? = some x) :
    ∃ ys, xs = ys ++ [x] := by
  obtain ⟨ys, rfl⟩ := List.getLast?_eq_some_iff.mp h
  exact ⟨ys, rfl⟩

/-- The declarations of the system functions start on a line of their own. -/
theorem Source.toList_withSystemDeclarations (source : Source) :
    ∃ cs, (source.contents.toList = cs ∨ source.contents.toList = cs ++ ['\n']) ∧
      source.withSystemDeclarations.contents.toList
        = cs ++ '\n' :: systemDeclarations.toList := by
  simp only [withSystemDeclarations]
  by_cases h : source.contents.toList.getLast? = some '\n'
  · rw [if_pos h]
    obtain ⟨cs, hcs⟩ := getLast?_eq_some h
    refine ⟨cs, .inr hcs, ?_⟩
    rw [String.toList_append, String.toList_append, hcs]
    simp
  · rw [if_neg h]
    refine ⟨source.contents.toList, .inl rfl, ?_⟩
    rw [String.toList_append, String.toList_append, List.append_assoc]
    rfl

/-- A text that does not end in a line feed, with the declarations behind it. -/
theorem Source.toList_spelled {source : Source} {cs : List Char}
    (hcontents : source.contents = String.ofList cs) (hlast : cs.getLast? ≠ some '\n') :
    source.withSystemDeclarations.contents.toList = cs ++ '\n' :: Spelled.declarations.chars := by
  have hcs : source.contents.toList = cs := by rw [hcontents, String.toList_ofList]
  simp only [withSystemDeclarations]
  rw [hcs, if_neg hlast, String.toList_append, String.toList_append, hcs,
    Spelled.declarations.toList_eq, List.append_assoc]
  rfl

/-- What is known of a program that was read from a text with the declarations behind it. -/
structure Program.IsRead (program : Program) : Prop where
  nodup_ids : (definitionIds program).Nodup
  wellFormed : WellFormedDefinitions program
  declares : ∃ own declared, program = own ++ declared ∧ Declares declared systemNames

theorem parse_withSystemDeclarations {source : Source} {program : Program}
    (h : Program.parse source.withSystemDeclarations.contents.toList = .ok program) :
    program.IsRead := by
  obtain ⟨cs, -, hcs⟩ := source.toList_withSystemDeclarations
  rw [hcs] at h
  obtain ⟨⟨ds, r'⟩, hdefinitions, h⟩ := bind_eq_ok h
  cases h
  have hgood := Tokens.ofText_good (cs ++ '\n' :: systemDeclarations.toList)
  obtain ⟨token, hending, hkind⟩ := Reader.definitions_end _ _ _ hgood hdefinitions
  obtain ⟨taken, hreads, hwell⟩ := Reader.definitions_ok _ _ _ hdefinitions
  obtain ⟨ending, hending'⟩ := ending_systemDeclarations
  obtain ⟨front, back, hlist, hback⟩ := Tokens.ofText_append hending hending'
  rw [forms_systemDeclarations] at hback
  refine ⟨?_, ?_, ?_⟩
  · rw [hreads.ids_eq]
    exact List.nodup_range'
  · refine hwell fun t ht => hgood t ?_
    have hall := hreads.list_eq
    simp only [Reader.ofText] at hall
    rw [hall]
    exact List.mem_append_left _ ht
  · obtain ⟨word, back, rfl, hword, _⟩ := List.map_eq_cons_iff.mp hback
    have hin : ∀ t ∈ word :: back, t.kind ≠ .keyword .kwIn := by
      have hforms : ∀ form ∈ systemNames.flatMap declarationForms,
          form.1 ≠ .keyword .kwIn := by decide
      intro t ht
      have hmem := List.mem_map_of_mem (f := Token.form) ht
      rw [hback] at hmem
      exact hforms _ hmem
    obtain ⟨own, declared, n, rfl, hdeclared⟩ := Reader.definitions_append _ front word back _ _
      hgood hlist (congrArg Prod.fst hword) hin hdefinitions
    obtain ⟨ds, r', hds, hnames⟩ := Reader.definitions_declared systemNames _ _ n
      ⟨token, hending, hkind⟩ hback
    cases hdeclared.symm.trans hds
    exact ⟨own, declared, rfl, .of_declared hnames⟩

end NestedFun
