import Calx.Line
import Calx.Meaning.Runs
import Calx.ParseExact
import Calx.Semicolons

/-!
# Sources

In a session, what a loaded source does when it is evaluated is what its tree means.
-/

namespace Calx

open LexemeKind Instr Libdeci Stateful

section

variable [Libdeci] {p : Parser} {body : Stmts}

omit [Libdeci] in
/-- The parser follows the tree of its source, as the operators of the code are grouped. -/
theorem parseState_follows [DeciBase] {globals : List Bytes} {source : Bytes}
    (htree : TreeOf source body) (hproper : body.Proper codePriorities false)
    (hp : parseState (parseFuel source) globals source = .ok p) : Follows source p body := by
  obtain ⟨e, he, htoks⟩ := htree.toks
  have herr : ∀ l ∈ body.toks, l.kind ≠ lkError := by
    intro l hl
    have hmem : l ∈ lexAll (lexerNew source) := by
      rw [htoks]
      exact List.mem_append_left _ hl
    exact (lexemes_unbroken htree.wf he htoks l hmem).1
  have hlength : body.toks.length + 3 ≤ parseFuel source := by
    have hle := lexAll_length_le (lexerNew source)
    rw [htoks, List.length_append, List.length_singleton, Lexer.bound] at hle
    simp only [lexerNew, Bool.not_false, Bool.toNat_true] at hle
    rw [parseFuel]
    omega
  exact ((parseState_yields htoks he herr hproper hlength).sound p hp).2

/-- What `load_string` makes is the function at the beginning of the chunk of its source. -/
theorem loadString_main {st : Store} {o : Outside} (hst : st.Sound) (ho : o.Lawful)
    (source : Bytes) (origin : String) : Act.Safe (fun st' r => ∀ f ∈ r, f.ip = 0 ∧ ∃ p,
      parseState (parseFuel source) st.globals.names source = .ok p ∧
        f.chunk = toChunk p source origin ∧ p.globals = st'.globals.names) st
      (loadString o source origin) := by
  apply Act.Safe.get_bind
  rcases hparse : parse st.globals.names source origin with e | ⟨c, names⟩
  · refine (Act.Safe.internAll hst o.tried).bind fun _ st' hst' _ _ => ?_
    refine .pure hst' fun f hf => ?_
    cases hf
  · obtain ⟨-, -, -, ⟨f, hchunk, hip⟩, xs, hnames⟩ := parse_sound_chunk hparse
    unfold parse at hparse
    obtain ⟨p, hp, hout⟩ := bind_ok hparse
    obtain ⟨rfl, rfl⟩ := Prod.mk.inj (Except.ok.inj hout)
    refine (Act.Safe.internAll hst _).bind fun _ st' hst' _ hst'names => ?_
    rw [hnames, putNames_again hst.globals.nodup, ← hnames] at hst'names
    obtain ⟨f', hf'⟩ := ho.makes f
    rw [hchunk, hip] at hf'
    refine Act.Safe.need_bind hf' (.pure hst' ?_)
    rintro _ ⟨⟩
    obtain ⟨hchunk', hip'⟩ := ho.made _ _ _ hf'
    exact ⟨hip', p, hp, hchunk', hst'names.symm⟩

/-- Every evaluation of the function that ends does so as the tree says, or at a call for which the
value stack cannot have the room. -/
def Stmts.Describes (body : Stmts) (f : Func) (st : Store) : Prop :=
  ∀ o m n r, EvaluatesIn o f st m n r →
    (r.1 = .error .panic ∧ ∃ k < n, ∃ m',
        runFor (fun k => (o k).world) k m = .next m' ∧ m'.Overfull) ∨
      body.Means (fun k => (o k).world) f.chunk st r

/-- A tree that the parser has followed describes the function at the beginning of the chunk. -/
theorem Follows.describes {f : Func} {st : Store} {source : Bytes} {origin : String}
    (hfollows : Follows source p body) (hunposted : ∀ q ∈ body.functions, q.2.postedFun = false)
    (hchunk : f.chunk = toChunk p source origin) (hip : f.ip = 0)
    (hf : f.chunk.Sound st.extent.globals) (hst : st.Sound)
    (hkept : p.globals = st.globals.names) : body.Describes f st := by
  intro o m n r heval
  have hcompiled : f.chunk.Compiled p body := by
    rw [hchunk]
    exact ⟨hfollows, rfl, hunposted⟩
  obtain ⟨base, realloc, hstart⟩ := heval.start
  let W : Worlds Nat :=
    ⟨fun k => (o k).world, fun k => (o k).Fair, fun k => (heval.lawful k).world⟩
  refine runFor_means (W := W) (i := id) hf hst hcompiled ?_ hip hstart ?_ heval.ends
  · rw [hkept]
  · intro k hk m' hm'
    have hturn := heval.spared k hk m' hm'
    refine ⟨hturn.stack, fun id args hcalls =>
      ⟨hturn.sources id args hcalls, hturn.lines id args hcalls, ?_⟩⟩
    intro hrequire f' st' hf' hst' hmodule
    exact (heval.modules k hk m' hm' id args hcalls hrequire f' st' hmodule).sound hf' hst'

/-- In a session, a source that is loaded has a tree that describes its evaluation; so does every
tree in which the operators are grouped as in the code. -/
theorem Session.means {st : Store} (h : Session st) {o : Outside} (ho : o.Lawful) {source : Bytes}
    (hsource : Unposted source) (origin : String) :
    ∀ f st', outcome (loadString o source origin) st = (.ok (some f), st') →
      (∃ body, TreeOf source body ∧ body.Describes f st') ∧
        ∀ body, TreeOf source body → body.Proper codePriorities false → body.Describes f st' := by
  intro f st' hload
  obtain ⟨hst', hsound⟩ := loadString_sound h.sound ho hsource hload
  obtain ⟨-, -, hmain, -⟩ := loadString_main h.sound ho source origin
  rw [hload] at hmain
  obtain ⟨hip, p, hp, hchunk, hkept⟩ := hmain _ rfl f rfl
  have hdescribes : ∀ body, Follows source p body → body.Describes f st' := fun body hfollows =>
    hfollows.describes (hsource body ⟨hfollows.wf, hfollows.toks⟩) hchunk hip (hsound f rfl) hst'
      hkept
  obtain ⟨body, hfollows⟩ := parse_sound hp
  refine ⟨⟨body, ⟨hfollows.wf, hfollows.toks⟩, hdescribes body hfollows⟩,
    fun body htree hproper => ?_⟩
  exact hdescribes body (parseState_follows htree hproper hp)

end

/-! ## A source that is loaded and run -/

namespace Doubling

attribute [local instance] libdeciByValue

/-- `f(n - 1)`. -/
def recursion : Expr :=
  .call (.ident (lexemeAt lkIdent 46 "f")) (lexemeAt lkLparen 47 "(")
    (.last (.binary (.ident (lexemeAt lkIdent 48 "n")) (lexemeAt lkMinus 50 "-")
      (.literal (lexemeAt lkNumber 52 "1"))))
    none (lexemeAt lkRparen 53 ")")

/-- `2 * f(n - 1)`. -/
def product : Expr :=
  .binary (.literal (lexemeAt lkNumber 42 "2")) (lexemeAt lkStar 44 "*") recursion

/-- `n < 1`. -/
def condition : Expr :=
  .binary (.ident (lexemeAt lkIdent 15 "n")) (lexemeAt lkLess 17 "<")
    (.literal (lexemeAt lkNumber 19 "1"))

/-- `f(3)`. -/
def first : Expr :=
  .call (.ident (lexemeAt lkIdent 61 "f")) (lexemeAt lkLparen 62 "(")
    (.last (.literal (lexemeAt lkNumber 63 "3"))) none (lexemeAt lkRparen 64 ")")

/-- The tree of the source, with the semicolons that are inserted. -/
def tree : Stmts :=
  .cons
    (.funStmt (lexemeAt lkFun 0 "fun") (lexemeAt lkIdent 4 "f") (lexemeAt lkLparen 5 "(")
      (some (.last (lexemeAt lkIdent 6 "n"))) (lexemeAt lkRparen 7 ")")
      (lexemeAt lkLbrace 9 "\x7b")
      (.cons
        (.ifStmt (lexemeAt lkIf 11 "if") (lexemeAt lkLparen 14 "(") condition
          (lexemeAt lkRparen 20 ")") (lexemeAt lkLbrace 22 "\x7b")
          (.cons
            (.returnStmt (lexemeAt lkReturn 24 "return")
              (some (.literal (lexemeAt lkNumber 31 "1"))) (lexemeAt lkSemicolon 33 ""))
            .nil)
          (lexemeAt lkRbrace 33 "\x7d") .none)
        (.cons
          (.returnStmt (lexemeAt lkReturn 35 "return") (some product)
            (lexemeAt lkSemicolon 55 ""))
          .nil))
      (lexemeAt lkRbrace 55 "\x7d"))
    (.cons
      (.simple (.assign (.ident (lexemeAt lkIdent 57 "x")) (lexemeAt lkEq 59 "=") first)
        (lexemeAt lkSemicolon 65 ""))
      .nil)

theorem lexAll_source :
    lexAll (lexerNew source) = tree.toks ++ [⟨lkEof, 65, [], ⟨1, 66⟩⟩] := by decide

theorem recursion_proper : recursion.Proper codePriorities := by
  refine ⟨⟨rfl, rfl, ⟨rfl, rfl, rfl, rfl⟩, ?_, rfl⟩, trivial, by decide, trivial, trivial, ?_⟩
  · rintro _ ⟨⟩
  · rintro q ⟨⟩
    decide

theorem product_proper : product.Proper codePriorities := by
  refine ⟨⟨⟨rfl, rfl⟩, rfl, recursion_proper.1⟩, trivial, recursion_proper.2, ?_⟩
  rintro q ⟨⟩
  decide

theorem condition_proper : condition.Proper codePriorities := by
  refine ⟨⟨rfl, rfl, rfl, rfl⟩, trivial, trivial, ?_⟩
  rintro q ⟨⟩
  decide

theorem first_proper : first.Proper codePriorities := by
  refine ⟨⟨rfl, rfl, ⟨rfl, rfl⟩, ?_, rfl⟩, trivial, by decide, trivial⟩
  rintro _ ⟨⟩

theorem tree_proper : tree.Proper codePriorities false := by
  refine ⟨⟨rfl, rfl, rfl, ?_, rfl, rfl, ⟨?_, ⟨rfl, ?_, rfl⟩, trivial⟩, rfl⟩,
    ⟨⟨⟨rfl, rfl, first_proper.1, rfl⟩, trivial, first_proper.2⟩, rfl⟩, trivial⟩
  · rintro _ ⟨⟩
    exact ⟨rfl, by decide⟩
  · refine ⟨rfl, rfl, condition_proper, rfl, rfl, ⟨⟨rfl, ?_, rfl⟩, trivial⟩, rfl, trivial⟩
    rintro _ ⟨⟩
    exact ⟨⟨rfl, rfl⟩, trivial⟩
  · rintro _ ⟨⟩
    exact product_proper

theorem tree_wf : tree.Wf false := by
  refine ⟨⟨rfl, rfl, rfl, ?_, rfl, rfl, ⟨?_, ⟨rfl, ?_, rfl⟩, trivial⟩, rfl⟩,
    ⟨⟨rfl, rfl, first_proper.1, rfl⟩, rfl⟩, trivial⟩
  · rintro _ ⟨⟩
    exact ⟨rfl, by decide⟩
  · refine ⟨rfl, rfl, condition_proper.1, rfl, rfl, ⟨⟨rfl, ?_, rfl⟩, trivial⟩, rfl, trivial⟩
    rintro _ ⟨⟩
    exact ⟨rfl, rfl⟩
  · rintro _ ⟨⟩
    exact product_proper.1

end Doubling

/-- `Session.means` at the first source of a session, which calls its function and is evaluated to
its end. -/
theorem Session.means_doubling : ∃ g o f st m n v st',
    @makeState libdeciByValue .quiet = .ok g ∧
    outcome (@loadString libdeciByValue o (bytesOf
      "fun f(n) \x7b if (n < 1) \x7b return 1 \x7d return 2 * f(n - 1) \x7d x = f(3)") "(input)")
        (@Store.new deciBase64 g) = (.ok (some f), st) ∧
    @EvaluatesIn libdeciByValue (fun _ => o) f st m n (.ok v, st') ∧
    @Stmts.Means libdeciByValue Nat Doubling.tree (fun _ => @Outside.world libdeciByValue o)
      f.chunk st (.ok v, st') := by
  let := libdeciByValue
  obtain ⟨m, v, st', heval⟩ := Doubling.evaluatesIn
  obtain ⟨-, hmeans⟩ := (Session.start Doubling.makeState_eq).means (Outside.making_lawful _)
    Doubling.unposted "(input)" _ _ Doubling.loadString_eq
  have htree : TreeOf Doubling.source Doubling.tree :=
    ⟨Doubling.tree_wf, _, rfl, Doubling.lexAll_source⟩
  have hends := hmeans Doubling.tree htree Doubling.tree_proper _ _ _ _ heval
  refine ⟨_, _, _, _, m, _, v, st', Doubling.makeState_eq, Doubling.loadString_eq, heval, ?_⟩
  apply hends.resolve_left
  rintro ⟨hpanic, -⟩
  cases hpanic

end Calx
