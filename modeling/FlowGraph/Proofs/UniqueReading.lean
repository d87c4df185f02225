import FlowGraph.Block
import FlowGraph.Proofs.Decimal
import Mathlib.Data.Set.Function

/-!
# Texts can be read in one way only

Expressions are written in two notations, infix between parentheses and as calls, which are nested
freely; an operator symbol may begin like a constant. This file shows that nothing is lost, provided
that names hold neither blanks nor parentheses nor commas and are no numerals: expressions,
assignments and jumps with the same text are equal. The reason is that a text and whatever may
follow it can be taken apart from the left: up to the first mark it is a name, and the mark after
the name tells the notation.
-/

namespace FlowGraph

/-- A character that separates names: a blank, a parenthesis or a comma. -/
def isMark (c : Char) : Bool :=
  isBlank c || c == '(' || c == ')' || c == ','

/-- A name that no mark divides. -/
structure IsPlain (s : String) : Prop where
  ne_empty : s ≠ ""
  not_mark : ∀ c ∈ s.toList, isMark c = false

/-- A plain name that cannot be taken for a constant. -/
structure IsPlainName (s : String) : Prop extends IsPlain s where
  not_numeral : ∀ w : Word, s ≠ w.text

/-- All names in an expression are plain. -/
inductive Expr.Plain : Expr → Prop
  | const (w : Word) : Plain (.const w)
  | var {x : Var} (hx : IsPlainName x.name) : Plain (.var x)
  | app {symbol : String} {args : List Expr} (hs : IsPlain symbol) (h : ∀ e ∈ args, Plain e) :
      Plain (.app symbol args)

def Label.Plain : Label → Prop
  | num _ => True
  | text s => IsPlainName s

structure Assignment.Plain (a : Assignment) : Prop where
  target : IsPlainName a.target.name
  value : a.value.Plain

def Jump.Plain : Jump → Prop
  | goto l => l.Plain
  | branch c yes no => c.Plain ∧ yes.Plain ∧ no.Plain
  | ret e => e.Plain

section Marks

lemma isMark_eq_false_of_mem_digits {n : Int} {c : Char} (h : c ∈ Numeral.digits n) :
    isMark c = false := by
  have hblank := Numeral.isBlank_eq_false_of_mem_digits h
  have hother : c ≠ '(' ∧ c ≠ ')' ∧ c ≠ ',' := by
    refine ⟨?_, ?_, ?_⟩
    all_goals
      rintro rfl
      unfold Numeral.digits at h
      split at h
      · have hd := Numeral.isDigit_of_mem_toDigits (List.mem_of_ne_of_mem (by decide) h)
        cases hd
      · have hd := Numeral.isDigit_of_mem_toDigits h
        cases hd
  simp [isMark, hblank, hother]

lemma isPlain_text (w : Word) : IsPlain w.text where
  ne_empty h := by
    apply Numeral.digits_ne_nil w.toInt
    rw [← Numeral.toList_write, ← Word.text, h, String.toList_empty]
  not_mark c hc := by
    rw [Word.text, Numeral.toList_write] at hc
    exact isMark_eq_false_of_mem_digits hc

lemma isPlain_of_any {s : String} (hne : s ≠ "") (h : s.toList.any isMark = false) : IsPlain s where
  ne_empty := hne
  not_mark c hc := Bool.eq_false_iff.mpr (List.any_eq_false.mp h c hc)

/-- What is not read as a numeral is not the numeral of a word. -/
lemma isPlainName_of_read {s : String} (h : IsPlain s) {m : Numeral.Malformed}
    (hread : Numeral.read s = .error m) : IsPlainName s where
  toIsPlain := h
  not_numeral := by
    rintro w rfl
    rw [Numeral.read_text] at hread
    cases hread

lemma Word.text_injective : Function.Injective Word.text := by
  intro v w h
  have hread := Numeral.read_text v
  rw [h, Numeral.read_text] at hread
  exact (Except.ok.inj hread).symm

lemma Var.name_injective : Function.Injective Var.name := by
  rintro ⟨s⟩ ⟨t⟩ h
  exact congrArg Var.mk h

lemma IsPlain.toList_ne_nil {s : String} (h : IsPlain s) : s.toList ≠ [] :=
  mt String.toList_eq_nil_iff.mp h.ne_empty

/-- A name ends at the first mark. -/
lemma append_inj_of_mark {n n' r r' : List Char} (hn : ∀ c ∈ n, isMark c = false)
    (hn' : ∀ c ∈ n', isMark c = false) (hr : ∀ c ∈ r.head?, isMark c = true)
    (hr' : ∀ c ∈ r'.head?, isMark c = true) (h : n ++ r = n' ++ r') : n = n' ∧ r = r' := by
  have hne : ∀ {c : Char} {cs cs' : List Char}, isMark c = false →
      (∀ d ∈ cs.head?, isMark d = true) → cs ≠ c :: cs' := by
    rintro c cs cs' hc hcs rfl
    rw [hcs c rfl] at hc
    cases hc
  induction n generalizing n' with
  | nil =>
    cases n' with
    | nil => exact ⟨rfl, h⟩
    | cons c n' => exact absurd h (hne (hn' c List.mem_cons_self) hr)
  | cons c n ih =>
    cases n' with
    | nil => exact absurd h.symm (hne (hn c List.mem_cons_self) hr')
    | cons d n' =>
      obtain ⟨rfl, htail⟩ := List.cons.inj h
      obtain ⟨rfl, rfl⟩ := ih (fun e he => hn e (List.mem_cons_of_mem _ he))
        (fun e he => hn' e (List.mem_cons_of_mem _ he)) htail
      exact ⟨rfl, rfl⟩

end Marks

/-- What may follow the text of an expression: nothing, a space, a closing parenthesis or a
comma. -/
def Closes (r : List Char) : Prop :=
  ∀ c ∈ r.head?, c = ' ' ∨ c = ')' ∨ c = ','

lemma Closes.isMark {r : List Char} (h : Closes r) : ∀ c ∈ r.head?, isMark c = true := by
  intro c hc
  rcases h c hc with rfl | rfl | rfl
  all_goals rfl

lemma closes_nil : Closes [] := nofun

lemma closes_space (r : List Char) : Closes (' ' :: r) := by
  rintro c ⟨⟩
  exact .inl rfl

lemma closes_paren (r : List Char) : Closes (')' :: r) := by
  rintro c ⟨⟩
  exact .inr (.inl rfl)

lemma closes_comma (r : List Char) : Closes (',' :: r) := by
  rintro c ⟨⟩
  exact .inr (.inr rfl)

namespace Expr

/-- The text of an expression up to its first mark. -/
def word : Expr → List Char
  | const w => w.text.toList
  | var x => x.name.toList
  | app _ [_, _] => []
  | app symbol _ => symbol.toList

/-- The text of an expression from its first mark on, with `r` after it. -/
def after (r : List Char) : Expr → List Char
  | const _ => r
  | var _ => r
  | app symbol [a, b] =>
    '(' :: (a.text.toList ++ ' ' :: (symbol.toList ++ ' ' :: (b.text.toList ++ ')' :: r)))
  | app _ args => '(' :: ((textList args).toList ++ ')' :: r)

/-- What follows the first of several arguments. -/
def more : List Expr → List Char
  | [] => []
  | e :: es => ',' :: ' ' :: (textList (e :: es)).toList

lemma toList_textList_cons (e : Expr) (es : List Expr) :
    (textList (e :: es)).toList = e.text.toList ++ more es := by
  cases es with
  | nil => simp [textList, more]
  | cons f fs => simp [textList, more]

lemma text_append (e : Expr) (r : List Char) : e.text.toList ++ r = e.word ++ e.after r := by
  match e with
  | const w => rfl
  | var x => rfl
  | app s [] => simp [text, word, after]
  | app s [a] => simp [text, word, after]
  | app s [a, b] => simp [text, word, after]
  | app s (a :: b :: c :: es) => simp [text, word, after]

lemma after_app (s : String) (args : List Expr) (r : List Char) :
    ∃ cs, (app s args).after r = '(' :: cs := by
  match args with
  | [] => exact ⟨_, rfl⟩
  | [a] => exact ⟨_, rfl⟩
  | [a, b] => exact ⟨_, rfl⟩
  | a :: b :: c :: es => exact ⟨_, rfl⟩

lemma word_app {s : String} {args : List Expr} (h : args.length ≠ 2) :
    (app s args).word = s.toList := by
  match args, h with
  | [], _ => rfl
  | [a], _ => rfl
  | a :: b :: c :: es, _ => rfl

lemma after_call {s : String} {args : List Expr} (h : args.length ≠ 2) (r : List Char) :
    (app s args).after r = '(' :: ((textList args).toList ++ ')' :: r) := by
  match args, h with
  | [], _ => rfl
  | [a], _ => rfl
  | a :: b :: c :: es, _ => rfl

section
variable {e f : Expr} {r r' : List Char}

lemma Plain.word_not_mark (h : e.Plain) : ∀ c ∈ e.word, isMark c = false := by
  cases h with
  | const w => exact (isPlain_text w).not_mark
  | var hx => exact hx.not_mark
  | @app s args hs _ =>
    by_cases hlen : args.length = 2
    · obtain ⟨a, b, rfl⟩ := List.length_eq_two.mp hlen
      nofun
    · rw [word_app hlen]
      exact hs.not_mark

lemma isMark_head?_after (e : Expr) (hr : Closes r) :
    ∀ c ∈ (e.after r).head?, isMark c = true := by
  cases e with
  | const w => exact hr.isMark
  | var x => exact hr.isMark
  | app s args =>
    obtain ⟨cs, hcs⟩ := after_app s args r
    rw [hcs]
    rintro c ⟨⟩
    rfl

/-- Equal texts have the same name in front of the same first mark. -/
lemma Plain.word_eq (he : e.Plain) (hf : f.Plain) (hr : Closes r) (hr' : Closes r')
    (h : e.text.toList ++ r = f.text.toList ++ r') : e.word = f.word ∧ e.after r = f.after r' := by
  rw [text_append, text_append] at h
  exact append_inj_of_mark he.word_not_mark hf.word_not_mark (isMark_head?_after e hr)
    (isMark_head?_after f hr') h

/-- What follows a name by itself does not open an application. -/
lemma after_app_ne (s : String) (args : List Expr) (hr : Closes r) : (app s args).after r' ≠ r := by
  obtain ⟨cs, hcs⟩ := after_app s args r'
  rw [hcs]
  rintro rfl
  rcases hr '(' rfl with h | h | h
  all_goals cases h

/-- No expression starts with a closing parenthesis. -/
lemma Plain.text_append_ne (he : e.Plain) (hr : Closes r) : e.text.toList ++ r ≠ ')' :: r' := by
  intro h
  rw [text_append] at h
  have hsplit : e.word ++ e.after r = [] ++ ')' :: r' := h
  obtain ⟨hword, hafter⟩ := append_inj_of_mark he.word_not_mark (List.forall_mem_nil _)
    (isMark_head?_after e hr) (closes_paren r').isMark hsplit
  cases he with
  | const w => exact (isPlain_text w).toList_ne_nil hword
  | var hx => exact hx.toList_ne_nil hword
  | app _ _ => exact after_app_ne _ _ (closes_paren r') hafter

/-- The expression can be told from the text, whatever may follow it there. -/
def ReadsBack (e : Expr) : Prop :=
  ∀ f r r', f.Plain → Closes r → Closes r' → e.text.toList ++ r = f.text.toList ++ r' →
    e = f ∧ r = r'

lemma closes_more (es : List Expr) (r : List Char) : Closes (more es ++ ')' :: r) := by
  cases es with
  | nil => exact closes_paren r
  | cons e es => exact closes_comma _

/-- Arguments that can be told one by one can be told as a list, up to the closing parenthesis. -/
lemma textList_inj {es fs : List Expr} (hes : ∀ e ∈ es, e.Plain) (hfs : ∀ f ∈ fs, f.Plain)
    (hread : ∀ e ∈ es, e.ReadsBack)
    (h : (textList es).toList ++ ')' :: r = (textList fs).toList ++ ')' :: r') :
    es = fs ∧ r = r' := by
  induction es generalizing fs with
  | nil =>
    cases fs with
    | nil => exact ⟨rfl, (List.cons.inj h).2⟩
    | cons f fs =>
      rw [toList_textList_cons, List.append_assoc] at h
      exact absurd h.symm ((hfs f List.mem_cons_self).text_append_ne (closes_more fs r'))
  | cons e es ih =>
    rw [toList_textList_cons, List.append_assoc] at h
    cases fs with
    | nil => exact absurd h ((hes e List.mem_cons_self).text_append_ne (closes_more es r))
    | cons f fs =>
      rw [toList_textList_cons, List.append_assoc] at h
      obtain ⟨rfl, hmore⟩ := hread e List.mem_cons_self f _ _ (hfs f List.mem_cons_self)
        (closes_more es r) (closes_more fs r') h
      cases es with
      | nil =>
        cases fs with
        | nil => exact ⟨rfl, (List.cons.inj hmore).2⟩
        | cons f' fs => cases (List.cons.inj hmore).1
      | cons e' es =>
        cases fs with
        | nil => cases (List.cons.inj hmore).1
        | cons f' fs =>
          obtain ⟨hlist, hr⟩ := ih (fun d hd => hes d (List.mem_cons_of_mem _ hd))
            (fun d hd => hfs d (List.mem_cons_of_mem _ hd))
            (fun d hd => hread d (List.mem_cons_of_mem _ hd))
            (List.cons.inj (List.cons.inj hmore).2).2
          exact ⟨by rw [hlist], hr⟩

lemma readsBack_const (w : Word) : (const w).ReadsBack := by
  intro f r r' hf hr hr' h
  obtain ⟨hword, hafter⟩ := (Plain.const w).word_eq hf hr hr' h
  cases hf with
  | const v => exact ⟨congrArg const (Word.text_injective (String.toList_inj.mp hword)), hafter⟩
  | var hx => exact absurd (String.toList_inj.mp hword).symm (hx.not_numeral w)
  | app _ _ => exact absurd hafter.symm (after_app_ne _ _ hr)

lemma readsBack_var {x : Var} (hx : IsPlainName x.name) : (var x).ReadsBack := by
  intro f r r' hf hr hr' h
  obtain ⟨hword, hafter⟩ := (Plain.var hx).word_eq hf hr hr' h
  cases hf with
  | const v => exact absurd (String.toList_inj.mp hword) (hx.not_numeral v)
  | var hy => exact ⟨congrArg var (Var.name_injective (String.toList_inj.mp hword)), hafter⟩
  | app _ _ => exact absurd hafter.symm (after_app_ne _ _ hr)

lemma infix_inj {s t : String} {a b a' b' : Expr} (hs : IsPlain s) (ht : IsPlain t)
    (ha : a.ReadsBack) (hb : b.ReadsBack) (ha' : a'.Plain) (hb' : b'.Plain)
    (h : (binary s a b).after r = (binary t a' b').after r') :
    binary s a b = binary t a' b' ∧ r = r' := by
  obtain ⟨rfl, hleft⟩ := ha a' _ _ ha' (closes_space _) (closes_space _) (List.cons.inj h).2
  obtain ⟨hsymbol, hright⟩ := append_inj_of_mark hs.not_mark ht.not_mark (closes_space _).isMark
    (closes_space _).isMark (List.cons.inj hleft).2
  obtain ⟨rfl, hend⟩ := hb b' _ _ hb' (closes_paren r) (closes_paren r') (List.cons.inj hright).2
  exact ⟨by rw [String.toList_inj.mp hsymbol], (List.cons.inj hend).2⟩

lemma readsBack_app {s : String} {args : List Expr} (hs : IsPlain s) (hargs : ∀ e ∈ args, e.Plain)
    (hread : ∀ e ∈ args, e.ReadsBack) : (app s args).ReadsBack := by
  intro f r r' hf hr hr' h
  obtain ⟨hword, hafter⟩ := (Plain.app hs hargs).word_eq hf hr hr' h
  cases hf with
  | const v => exact absurd hafter (after_app_ne s args hr')
  | var hy => exact absurd hafter (after_app_ne s args hr')
  | @app t brgs ht hbrgs =>
    by_cases hlen : args.length = 2
    · obtain ⟨a, b, rfl⟩ := List.length_eq_two.mp hlen
      by_cases hlen' : brgs.length = 2
      · obtain ⟨a', b', rfl⟩ := List.length_eq_two.mp hlen'
        exact infix_inj hs ht (hread a (by simp)) (hread b (by simp)) (hbrgs a' (by simp))
          (hbrgs b' (by simp)) hafter
      · rw [word_app hlen'] at hword
        exact absurd hword.symm ht.toList_ne_nil
    · by_cases hlen' : brgs.length = 2
      · obtain ⟨a', b', rfl⟩ := List.length_eq_two.mp hlen'
        rw [word_app hlen] at hword
        exact absurd hword hs.toList_ne_nil
      · rw [word_app hlen, word_app hlen'] at hword
        rw [after_call hlen, after_call hlen'] at hafter
        obtain ⟨rfl, hr⟩ := textList_inj hargs hbrgs hread (List.cons.inj hafter).2
        exact ⟨by rw [String.toList_inj.mp hword], hr⟩

theorem Plain.readsBack (h : e.Plain) : e.ReadsBack := by
  induction h with
  | const w => exact readsBack_const w
  | var hx => exact readsBack_var hx
  | app hs h ih => exact readsBack_app hs h ih

end

end Expr

lemma Label.Plain.isMark_render {l : Label} (h : l.Plain) :
    ∀ c ∈ l.render.toList, isMark c = false := by
  cases l with
  | num n => exact (isPlain_text n).not_mark
  | text s => exact h.not_mark

lemma Label.Plain.render_inj {l m : Label} (hl : l.Plain) (hm : m.Plain)
    (h : l.render = m.render) : l = m := by
  cases l with
  | num i =>
    cases m with
    | num j => rw [Word.text_injective h]
    | text t => exact absurd h.symm (hm.not_numeral i)
  | text s =>
    cases m with
    | num j => exact absurd h (hl.not_numeral j)
    | text t => exact congrArg Label.text h

lemma Expr.Plain.text_inj {e f : Expr} (he : e.Plain) (hf : f.Plain) (h : e.text = f.text) :
    e = f :=
  (he.readsBack f [] [] hf closes_nil closes_nil (by rw [h])).1

lemma Assignment.Plain.text_inj {a b : Assignment} (ha : a.Plain) (hb : b.Plain)
    (h : a.text = b.text) : a = b := by
  have hchars : a.target.name.toList ++ ' ' :: (':' :: '=' :: ' ' :: a.value.text.toList) =
      b.target.name.toList ++ ' ' :: (':' :: '=' :: ' ' :: b.value.text.toList) := by
    simpa [Assignment.text] using congrArg String.toList h
  obtain ⟨htarget, hrest⟩ := append_inj_of_mark ha.target.not_mark hb.target.not_mark
    (closes_space _).isMark (closes_space _).isMark hchars
  have hvalue : a.value.text.toList = b.value.text.toList := by
    simpa using hrest
  have hx : a.target = b.target := Var.name_injective (String.toList_inj.mp htarget)
  have he : a.value = b.value := ha.value.text_inj hb.value (String.toList_inj.mp hvalue)
  calc
    a = ⟨a.target, a.value⟩ := rfl
    _ = ⟨b.target, b.value⟩ := by rw [hx, he]

/-- The label of the first target ends where the second part of the branch begins. -/
lemma Jump.branch_inj {c d : Expr} {yes no yes' no' : Label} (hc : (branch c yes no).Plain)
    (hd : (branch d yes' no').Plain) (h : (branch c yes no).text = (branch d yes' no').text) :
    branch c yes no = branch d yes' no' := by
  obtain ⟨hc, hyes, hno⟩ := hc
  obtain ⟨hd, hyes', hno'⟩ := hd
  have hchars : c.text.toList ++ ' ' :: ("goto ".toList ++ (yes.render.toList ++
        ' ' :: ("else goto ".toList ++ no.render.toList))) =
      d.text.toList ++ ' ' :: ("goto ".toList ++ (yes'.render.toList ++
        ' ' :: ("else goto ".toList ++ no'.render.toList))) := by
    simpa [Jump.text] using congrArg String.toList h
  obtain ⟨rfl, htargets⟩ := hc.readsBack d _ _ hd (closes_space _) (closes_space _) hchars
  obtain ⟨hfirst, hrest⟩ := append_inj_of_mark hyes.isMark_render hyes'.isMark_render
    (closes_space _).isMark (closes_space _).isMark
    (List.append_cancel_left (List.cons.inj htargets).2)
  have hsecond := List.append_cancel_left (List.cons.inj hrest).2
  rw [hyes.render_inj hyes' (String.toList_inj.mp hfirst),
    hno.render_inj hno' (String.toList_inj.mp hsecond)]

/-- The first letter tells the kind of a jump. -/
lemma Jump.Plain.text_inj {j k : Jump} (hj : j.Plain) (hk : k.Plain) (h : j.text = k.text) :
    j = k := by
  have hhead : j.text.toList.head? = k.text.toList.head? := by rw [h]
  cases j with
  | goto l =>
    cases k with
    | goto m =>
      have hlabel : l.render = m.render := by simpa [Jump.text] using h
      rw [Label.Plain.render_inj hj hk hlabel]
    | branch d yes no => simp [Jump.text] at hhead
    | ret f => simp [Jump.text] at hhead
  | branch c yes no =>
    cases k with
    | goto m => simp [Jump.text] at hhead
    | branch d yes' no' => exact Jump.branch_inj hj hk h
    | ret f => simp [Jump.text] at hhead
  | ret e =>
    cases k with
    | goto m => simp [Jump.text] at hhead
    | branch d yes no => simp [Jump.text] at hhead
    | ret f =>
      have hvalue : e.text = f.text := by simpa [Jump.text] using h
      rw [Expr.Plain.text_inj hj hk hvalue]

/-- If all names are plain, expressions with the same text are equal, and so are assignments and
jumps. -/
theorem text_injOn_plain :
    Set.InjOn Expr.text {e | e.Plain} ∧ Set.InjOn Assignment.text {a | a.Plain} ∧
      Set.InjOn Jump.text {j | j.Plain} :=
  ⟨fun _ he _ hf => Expr.Plain.text_inj he hf, fun _ ha _ hb => Assignment.Plain.text_inj ha hb,
    fun _ hj _ hk => Jump.Plain.text_inj hj hk⟩

/-- Differences nested to the left or to the right and the difference of three arguments are told
apart, as are jumps that differ in the order of their targets. -/
theorem differences_text_ne :
    let a : Expr := .var "a"
    let left : Expr := .binary "-" (.binary "-" a (.const 2)) (.const (-3))
    let right : Expr := .binary "-" a (.binary "-" (.const 2) (.const (-3)))
    let call : Expr := .app "-" [a, .const 2, .const (-3)]
    left.Plain ∧ right.Plain ∧ call.Plain ∧ left.text ≠ right.text ∧
      Assignment.text ⟨"a", left⟩ ≠ Assignment.text ⟨"a", call⟩ ∧
      Jump.text (.branch right (.num 1) (.text "a")) ≠
        Jump.text (.branch right (.text "a") (.num 1)) := by
  intro a left right call
  have hname : IsPlainName "a" := isPlainName_of_read (isPlain_of_any (by decide) rfl) rfl
  have hminus : IsPlain "-" := isPlain_of_any (by decide) rfl
  have ha : a.Plain := .var hname
  have hbinary : ∀ {l r : Expr}, l.Plain → r.Plain → (Expr.binary "-" l r).Plain := by
    intro l r hl hr
    refine .app hminus ?_
    simp only [List.forall_mem_cons]
    exact ⟨hl, hr, nofun⟩
  have hleft : left.Plain := hbinary (hbinary ha (.const 2)) (.const (-3))
  have hright : right.Plain := hbinary ha (hbinary (.const 2) (.const (-3)))
  have hcall : call.Plain := by
    refine .app hminus ?_
    simp only [List.forall_mem_cons]
    exact ⟨ha, .const 2, .const (-3), nofun⟩
  obtain ⟨hexpr, hassign, hjump⟩ := text_injOn_plain
  refine ⟨hleft, hright, hcall, ?_, ?_, ?_⟩
  · exact mt (hexpr hleft hright) (by decide)
  · have hl : Assignment.Plain ⟨"a", left⟩ := ⟨hname, hleft⟩
    have hc : Assignment.Plain ⟨"a", call⟩ := ⟨hname, hcall⟩
    exact mt (hassign hl hc) (by decide)
  · have hj : (Jump.branch right (.num 1) (.text "a")).Plain := ⟨hright, trivial, hname⟩
    have hk : (Jump.branch right (.text "a") (.num 1)).Plain := ⟨hright, hname, trivial⟩
    exact mt (hjump hj hk) (by decide)

end FlowGraph
