import Chakobsa.Parser.Program
import Chakobsa.Ir.Interp
import Mathlib.Data.List.FinRange

/-!
# The order of declarations does not matter

A declaration is a header without braces and one block with balanced braces; a list of tokens can be
cut into declarations in one way only (`Balanced.cut`). So two sources whose declarations are the
same up to their order render the same declarations up to their order, and since a body is
elaborated against the signatures of all functions, in a fresh builder, `parse` makes the same
functions of them: `parse_permuted`.
-/

namespace Chakobsa
namespace Parser

open Ir Lexer ExceptLemmas

/-! ### Cutting tokens into declarations -/

/-- A token that neither opens nor closes a block, nor ends the input. -/
def plain (k : TokenKind) : Prop := k ∉ [TokenKind.lBrace, .rBrace, .eof]

/-- A header and one balanced brace block. -/
def Declaration (d : List TokenKind) : Prop :=
  ∃ header body, d = header ++ .lBrace :: (body ++ [.rBrace]) ∧ (∀ k ∈ header, plain k) ∧
    Balanced body

/-- Balanced tokens end where the first unmatched closing brace stands. -/
theorem Balanced.cut {ks ks' rest rest' : List TokenKind} (h : Balanced ks) (h' : Balanced ks')
    (heq : ks ++ .rBrace :: rest = ks' ++ .rBrace :: rest') : ks = ks' ∧ rest = rest' := by
  induction h generalizing ks' rest rest' with
  | nil =>
    cases h' with
    | nil => exact ⟨rfl, by simpa using heq⟩
    | cons hk _ =>
      obtain ⟨rfl, -⟩ := List.cons.inj heq
      simp at hk
    | braces _ _ => cases heq
  | @cons k ks hk _ ih =>
    cases h' with
    | nil =>
      obtain ⟨rfl, -⟩ := List.cons.inj heq
      simp at hk
    | cons hk' h₁ =>
      obtain ⟨rfl, htail⟩ := List.cons.inj heq
      obtain ⟨rfl, hrest⟩ := ih h₁ htail
      exact ⟨rfl, hrest⟩
    | braces _ _ =>
      obtain ⟨rfl, -⟩ := List.cons.inj heq
      simp at hk
  | @braces ks₁ ks₂ _ _ ih₁ ih₂ =>
    cases h' with
    | nil => cases heq
    | cons hk' _ =>
      obtain ⟨rfl, -⟩ := List.cons.inj heq
      simp at hk'
    | braces h₁ h₂ =>
      simp only [List.append_assoc, List.cons_append, List.cons.injEq, true_and] at heq
      obtain ⟨rfl, htail⟩ := ih₁ h₁ heq
      obtain ⟨rfl, hrest⟩ := ih₂ h₂ htail
      exact ⟨rfl, hrest⟩

/-- A header ends at the first opening brace. -/
theorem header_cut {hs hs' rest rest' : List TokenKind} (h : ∀ k ∈ hs, plain k)
    (h' : ∀ k ∈ hs', plain k) (heq : hs ++ .lBrace :: rest = hs' ++ .lBrace :: rest') :
    hs = hs' ∧ rest = rest' := by
  have hbrace : ¬ plain .lBrace := fun hp => hp (by simp)
  induction hs generalizing hs' with
  | nil =>
    cases hs' with
    | nil => exact ⟨rfl, by simpa using heq⟩
    | cons k hs' =>
      obtain ⟨rfl, -⟩ := List.cons.inj heq
      exact absurd (h' _ List.mem_cons_self) hbrace
  | cons k hs ih =>
    cases hs' with
    | nil =>
      obtain ⟨rfl, -⟩ := List.cons.inj heq
      exact absurd (h _ List.mem_cons_self) hbrace
    | cons k' hs' =>
      obtain ⟨rfl, htail⟩ := List.cons.inj heq
      obtain ⟨rfl, hrest⟩ := ih (fun k hk => h k (List.mem_cons_of_mem _ hk))
        (fun k hk => h' k (List.mem_cons_of_mem _ hk)) htail
      exact ⟨rfl, hrest⟩

theorem Declaration.cut {d d' rest rest' : List TokenKind} (h : Declaration d)
    (h' : Declaration d') (heq : d ++ rest = d' ++ rest') : d = d' ∧ rest = rest' := by
  obtain ⟨hs, body, rfl, hplain, hbal⟩ := h
  obtain ⟨hs', body', rfl, hplain', hbal'⟩ := h'
  simp only [List.append_assoc, List.cons_append, List.nil_append] at heq
  obtain ⟨rfl, htail⟩ := header_cut hplain hplain' heq
  obtain ⟨rfl, hrest⟩ := hbal.cut hbal' htail
  exact ⟨rfl, hrest⟩

/-- Tokens are cut into declarations in one way. -/
theorem declarations_unique {ds ds' : List (List TokenKind)} (h : ∀ d ∈ ds, Declaration d)
    (h' : ∀ d ∈ ds', Declaration d) (heq : ds.flatten ++ [.eof] = ds'.flatten ++ [.eof]) :
    ds = ds' := by
  have hhead : ∀ {d : List TokenKind} {rest : List TokenKind}, Declaration d → d ++ rest ≠ [.eof] := by
    rintro d rest ⟨hs, body, rfl, hplain, -⟩ he
    cases hs with
    | nil => cases he
    | cons k hs =>
      obtain ⟨rfl, -⟩ := List.cons.inj he
      exact absurd (hplain _ List.mem_cons_self) fun hp => hp (by simp)
  induction ds generalizing ds' with
  | nil =>
    cases ds' with
    | nil => rfl
    | cons d' ds' =>
      rw [List.flatten_cons, List.append_assoc] at heq
      exact absurd heq.symm (hhead (h' d' List.mem_cons_self))
  | cons d ds ih =>
    cases ds' with
    | nil =>
      rw [List.flatten_cons, List.append_assoc] at heq
      exact absurd heq (hhead (h d List.mem_cons_self))
    | cons d' ds' =>
      rw [List.flatten_cons, List.flatten_cons, List.append_assoc, List.append_assoc] at heq
      obtain ⟨rfl, htail⟩ := (h d List.mem_cons_self).cut (h' d' List.mem_cons_self) heq
      rw [ih (fun e he => h e (List.mem_cons_of_mem _ he))
        (fun e he => h' e (List.mem_cons_of_mem _ he)) htail]

/-- The tokens of a function are a declaration. -/
theorem FnDecl.declaration (d : FnDecl) : Declaration d.tokens := by
  refine ⟨d.headerTokens, stmtsTokens d.body, rfl, fun k hk => ?_, balanced_stmts d.body⟩
  have hparams : ∀ {ps : List (String × Ty)} {sep : List TokenKind}, (∀ k ∈ sep, plain k) →
      ∀ k ∈ paramsTokens sep ps, plain k := by
    intro ps
    induction ps with
    | nil => intro sep _ k hk; cases hk
    | cons p ps ih =>
      intro sep hsep k hk
      rcases List.mem_append.mp hk with hk | hk
      · exact hsep k hk
      · simp only [List.mem_cons] at hk
        rcases hk with rfl | rfl | rfl | hk
        · simp [plain]
        · simp [plain]
        · cases p.2 <;> simp [plain, tyToken]
        · exact ih (by simp [plain]) k hk
  simp only [FnDecl.headerTokens, List.mem_cons, List.mem_append, List.not_mem_nil, or_false] at hk
  rcases hk with rfl | rfl | rfl | hk | rfl | rfl | rfl
  · simp [plain]
  · simp [plain]
  · simp [plain]
  · exact hparams (by simp) k hk
  · simp [plain]
  · simp [plain]
  · cases d.retTy <;> simp [plain, tyToken]

/-! ### Permuted lists -/

/-- `ys` lists the elements of `xs` in the order `σ`. -/
structure Permuted {α : Type} {n : ℕ} (σ : Equiv.Perm (Fin n)) (xs ys : List α) : Prop where
  length : xs.length = n
  length' : ys.length = n
  get : ∀ i : Fin n, ys[(i : ℕ)]? = xs[(σ i : ℕ)]?

section Permuted

variable {α β : Type} {n : ℕ} {σ : Equiv.Perm (Fin n)} {xs ys : List α}

theorem Permuted.symm (h : Permuted σ xs ys) : Permuted σ.symm ys xs where
  length := h.length'
  length' := h.length
  get i := by rw [h.get, Equiv.apply_symm_apply]

theorem Permuted.map (h : Permuted σ xs ys) (f : α → β) : Permuted σ (xs.map f) (ys.map f) where
  length := by rw [List.length_map, h.length]
  length' := by rw [List.length_map, h.length']
  get i := by rw [List.getElem?_map, List.getElem?_map, h.get]

/-- The second list is determined by the first. -/
theorem Permuted.unique {zs : List α} (h : Permuted σ xs ys) (h' : Permuted σ xs zs) : ys = zs := by
  apply List.ext_getElem?
  intro i
  by_cases hi : i < n
  · exact (h.get ⟨i, hi⟩).trans (h'.get ⟨i, hi⟩).symm
  · rw [List.getElem?_eq_none (by rw [h.length']; omega),
      List.getElem?_eq_none (by rw [h'.length']; omega)]

/-- Every list can be put into every order. -/
theorem exists_permuted (xs : List α) (σ : Equiv.Perm (Fin n)) (h : xs.length = n) :
    ∃ ys, Permuted σ xs ys ∧ xs.Perm ys := by
  subst h
  refine ⟨List.ofFn fun i => xs.get (σ i), ⟨rfl, List.length_ofFn, fun i => ?_⟩, ?_⟩
  · rw [List.getElem?_ofFn, dif_pos i.isLt]
    exact (List.getElem?_eq_getElem (σ i).isLt).symm
  · have := σ.ofFn_comp_perm xs.get
    rw [List.ofFn_get] at this
    exact this.symm

theorem Permuted.perm (h : Permuted σ xs ys) : xs.Perm ys := by
  obtain ⟨zs, hzs, hperm⟩ := exists_permuted _ σ h.length
  exact h.unique hzs ▸ hperm

end Permuted

/-! ### The functions of permuted declarations -/

theorem Program.Distinct.perm {P P' : Program} (h : P.Distinct) (hp : P.Perm P') : P'.Distinct :=
  ⟨(hp.map FnDecl.name).nodup_iff.mp h.1, fun d hd => h.2 d (hp.mem_iff.mpr hd)⟩

/-- The signatures do not depend on the order of the declarations. -/
theorem Program.Distinct.sigs_eq {P P' : Program} (h : P.Distinct) (hp : P.Perm P') :
    P'.sigs = P.sigs := by
  have hfind : ∀ {Q : Program} {d : FnDecl}, Q.Distinct → d ∈ Q → Q.sigs d.name = some d.sig := by
    intro Q d hQ hd
    have hsome : (Q.find? fun e => e.name == d.name).isSome :=
      List.find?_isSome.mpr ⟨d, hd, by simp⟩
    obtain ⟨e, he⟩ := Option.isSome_iff_exists.mp hsome
    have hname : e.name = d.name := by simpa using List.find?_some he
    rw [Program.sigs, he, List.inj_on_of_nodup_map hQ.1 (List.mem_of_find?_eq_some he) hd hname]
    rfl
  have hnone : ∀ {Q : Program} {x : String}, x ∉ Q.map FnDecl.name → Q.sigs x = none := by
    intro Q x hx
    have : (Q.find? fun e => e.name == x) = none :=
      List.find?_eq_none.mpr fun e he heq => hx (List.mem_map.mpr ⟨e, he, by simpa using heq⟩)
    rw [Program.sigs, this]
    rfl
  funext x
  by_cases hx : x ∈ P.map FnDecl.name
  · obtain ⟨d, hd, rfl⟩ := List.mem_map.mp hx
    rw [hfind h hd, hfind (h.perm hp) (hp.mem_iff.mp hd)]
  · rw [hnone hx, hnone (mt (hp.map FnDecl.name).mem_iff.mpr hx)]

/-- A module that finds the same functions runs the same. -/
theorem run_congr {M M' : Module} (h : M'.function = M.function) (name : String)
    (args : List RtValue) (n : ℕ) : run M' n name args = run M n name args := by
  have hexec : ∀ callee, execInst M' callee = execInst M callee := by
    intro callee
    funext env i
    unfold execInst
    rw [h]
  have hloop : loop M' = loop M := by
    funext n
    induction n with
    | zero => rfl
    | succ n ih =>
      funext f b from' env
      unfold loop
      rw [ih, hexec]
  unfold run call
  rw [h, hloop]

/-- Functions with distinct names are found in any order. -/
theorem function_perm {M M' : Module} (hnd : (M.functions.map (·.name)).Nodup)
    (hp : M.functions.Perm M'.functions) : M'.function = M.function := by
  have hnd' : (M'.functions.map (·.name)).Nodup := (hp.map _).nodup_iff.mp hnd
  funext x
  cases hx : M.function x with
  | some f =>
    obtain ⟨hf, rfl⟩ := Module.function_some hx
    exact Module.function_of_mem hnd' (hp.mem_iff.mp hf)
  | none =>
    refine Option.eq_none_iff_forall_not_mem.mpr fun f hf => ?_
    obtain ⟨hmem, rfl⟩ := Module.function_some hf
    rw [Module.function_of_mem hnd (hp.mem_iff.mpr hmem)] at hx
    cases hx

/-- The function of a declaration has its name, parameters and return type. -/
theorem elabFn_header {sigs : Sigs} {d : FnDecl} {f : Function} (h : elabFn sigs d = .ok f) :
    f.name = d.name ∧ f.params = d.params ∧ f.retTy = some d.retTy := by
  obtain ⟨⟨_, ctx⟩, hm, hf⟩ := bind_eq_ok.mp h
  obtain rfl := Except.ok.inj hf
  have hheader := ((keeps_elabStmts d.body).inScope hm).2.2
  simp only [SsaBuilder.header, Prod.mk.injEq] at hheader
  exact ⟨hheader.1, hheader.2.1, hheader.2.2.1⟩

theorem names_of_elabFn {sigs : Sigs} {P : Program} {fs : List Function}
    (h : List.Forall₂ (fun d f => elabFn sigs d = .ok f) P fs) :
    fs.map (·.name) = P.map FnDecl.name := by
  induction h with
  | nil => rfl
  | cons hf _ ih => rw [List.map_cons, List.map_cons, ih, (elabFn_header hf).1]

/-- A source whose tokens are those of some declarations, one after the other. -/
def Declares (source : String) (ds : List (List TokenKind)) : Prop :=
  ∃ toks, lex source = .ok toks ∧ kinds toks = ds.flatten ++ [.eof]

/-- What `parse` makes of a source it makes of every other with the same declarations in another
order. -/
theorem parse_of_permuted {ds ds' : List (List TokenKind)} {n : ℕ} {σ : Equiv.Perm (Fin n)}
    (hds : ∀ d ∈ ds, Declaration d) (hσ : Permuted σ ds ds') {source source' : String}
    (h : Declares source ds) (h' : Declares source' ds') {M : Module} (hM : parse source = .ok M) :
    ∃ M', parse source' = .ok M' ∧ Permuted σ M.functions M'.functions ∧
      (M.functions.map (·.name)).Nodup := by
  obtain ⟨P, hr⟩ := parse_ok hM
  obtain ⟨hdist, hfs⟩ := (parse_renders hr).mp hM
  obtain ⟨toks, hlex, hk, hs⟩ := hr
  obtain ⟨toks₁, hlex₁, hk₁⟩ := h
  obtain rfl : toks = toks₁ := Except.ok.inj (hlex.symm.trans hlex₁)
  -- the declarations of the source are those of the program
  have hcut : P.map FnDecl.tokens = ds := by
    refine declarations_unique (fun d hd => ?_) hds ?_
    · obtain ⟨e, -, rfl⟩ := List.mem_map.mp hd
      exact e.declaration
    · rw [← hk₁, hk, Program.tokens, List.flatMap_def]
  have hlen : P.length = n := by rw [← hσ.length, ← hcut, List.length_map]
  obtain ⟨P', hP', hperm⟩ := exists_permuted _ σ hlen
  have hds' : P'.map FnDecl.tokens = ds' := (hcut ▸ hP'.map FnDecl.tokens).unique hσ
  obtain ⟨toks', hlex', hk'⟩ := h'
  have hr' : Renders source' P' := by
    refine ⟨toks', hlex', ?_, ?_⟩
    · rw [hk', ← hds', Program.tokens, List.flatMap_def]
    · rw [Program.shaped, List.all_eq_true] at hs ⊢
      exact fun d hd => hs d (hperm.mem_iff.mpr hd)
  have hall := mapM_eq_ok.mp hfs
  obtain ⟨fs', hfs', hfperm⟩ := exists_permuted M.functions σ (hall.length_eq ▸ hlen)
  have hall' : List.Forall₂ (fun d f => elabFn P.sigs d = .ok f) P' fs' := by
    rw [List.forall₂_iff_get] at hall ⊢
    refine ⟨hP'.length'.trans hfs'.length'.symm, fun i hi hi' => ?_⟩
    have hin : i < n := hP'.length' ▸ hi
    have hd : P'[i]? = P[(σ ⟨i, hin⟩ : ℕ)]? := hP'.get ⟨i, hin⟩
    have hf : fs'[i]? = M.functions[(σ ⟨i, hin⟩ : ℕ)]? := hfs'.get ⟨i, hin⟩
    have hj : (σ ⟨i, hin⟩ : ℕ) < P.length := hlen ▸ (σ ⟨i, hin⟩).isLt
    have hj' : (σ ⟨i, hin⟩ : ℕ) < M.functions.length := hall.1 ▸ hj
    rw [List.getElem?_eq_getElem hi, List.getElem?_eq_getElem hj, Option.some.injEq] at hd
    rw [List.getElem?_eq_getElem hi', List.getElem?_eq_getElem hj', Option.some.injEq] at hf
    show elabFn P.sigs P'[i] = .ok fs'[i]
    rw [hd, hf]
    exact hall.2 _ hj hj'
  refine ⟨⟨fs'⟩, ?_, hfs', ?_⟩
  · rw [parse_renders hr', hdist.sigs_eq hperm]
    exact ⟨hdist.perm hperm, mapM_eq_ok.mpr hall'⟩
  · rw [names_of_elabFn hall]
    exact hdist.1

/-- **The order of declarations does not matter.** `parse` accepts a permuted source exactly when it
accepts the original one, and then makes the same functions in the permuted order, which run the
same. -/
theorem parse_permuted {ds ds' : List (List TokenKind)} {n : ℕ} {σ : Equiv.Perm (Fin n)}
    (hds : ∀ d ∈ ds, Declaration d) (hσ : Permuted σ ds ds') {source source' : String}
    (h : Declares source ds) (h' : Declares source' ds') :
    ((∃ M, parse source = .ok M) ↔ ∃ M', parse source' = .ok M') ∧
      ∀ M M', parse source = .ok M → parse source' = .ok M' →
        Permuted σ M.functions M'.functions ∧
          ∀ name args fuel, run M' fuel name args = run M fuel name args := by
  have hds' : ∀ d ∈ ds', Declaration d := fun d hd => hds d (hσ.perm.mem_iff.mpr hd)
  refine ⟨⟨fun ⟨M, hM⟩ => ?_, fun ⟨M', hM'⟩ => ?_⟩, fun M M' hM hM' => ?_⟩
  · obtain ⟨M', hM', -⟩ := parse_of_permuted hds hσ h h' hM
    exact ⟨M', hM'⟩
  · obtain ⟨M, hM, -⟩ := parse_of_permuted hds' hσ.symm h' h hM'
    exact ⟨M, hM⟩
  · obtain ⟨M₁, hM₁, hperm, hnd⟩ := parse_of_permuted hds hσ h h' hM
    obtain rfl : M₁ = M' := Except.ok.inj (hM₁.symm.trans hM')
    exact ⟨hperm, run_congr (function_perm hnd hperm.perm)⟩

/-- `fn f() -> i64 { return g(); }` -/
def callerTokens : List TokenKind :=
  [.fnKw, .ident "f", .lParen, .rParen, .arrow, .i64Kw, .lBrace, .returnKw, .ident "g", .lParen,
    .rParen, .semicolon, .rBrace]

/-- `fn g() -> i64 { return 1; }` -/
def calleeTokens : List TokenKind :=
  [.fnKw, .ident "g", .lParen, .rParen, .arrow, .i64Kw, .lBrace, .returnKw, .int 1, .semicolon,
    .rBrace]

theorem parse_permuted_calls :
    ∃ M M', parse "fn f() -> i64 { return g(); } fn g() -> i64 { return 1; }" = .ok M ∧
      parse "fn g() -> i64 { return 1; } fn f() -> i64 { return g(); }" = .ok M' ∧
      Permuted (Equiv.swap 0 1 : Equiv.Perm (Fin 2)) M.functions M'.functions ∧
      ∀ name args fuel, run M' fuel name args = run M fuel name args := by
  have hdecl : ∀ d ∈ [callerTokens, calleeTokens], Declaration d := by
    intro d hd
    simp only [List.mem_cons, List.not_mem_nil, or_false] at hd
    rcases hd with rfl | rfl
    · exact FnDecl.declaration ⟨"f", [], .i64, [.ret (.call "g" [])]⟩
    · exact FnDecl.declaration ⟨"g", [], .i64, [.ret (.int 1)]⟩
  have hσ : Permuted (Equiv.swap 0 1 : Equiv.Perm (Fin 2)) [callerTokens, calleeTokens]
      [calleeTokens, callerTokens] := ⟨rfl, rfl, by decide⟩
  have hlex : Declares "fn f() -> i64 { return g(); } fn g() -> i64 { return 1; }"
      [callerTokens, calleeTokens] := ⟨_, rfl, rfl⟩
  have hlex' : Declares "fn g() -> i64 { return 1; } fn f() -> i64 { return g(); }"
      [calleeTokens, callerTokens] := ⟨_, rfl, rfl⟩
  obtain ⟨hiff, hsame⟩ := parse_permuted hdecl hσ hlex hlex'
  obtain ⟨M, hM⟩ : ∃ M, parse "fn f() -> i64 { return g(); } fn g() -> i64 { return 1; }" = .ok M :=
    exists_of_isSome (by decide +kernel)
  obtain ⟨M', hM'⟩ := hiff.mp ⟨M, hM⟩
  exact ⟨M, M', hM, hM', hsame M M' hM hM'⟩

end Parser
end Chakobsa
