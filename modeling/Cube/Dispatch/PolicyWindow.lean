import Cube.Dispatch.PolicyFile
import Cube.Json.RoundTrip

/-!
# Policy files and the buffer they are read through

Which policy files are loaded as from their whole text: those whose policies fit the
buffer, each with the blanks before it, and where what the buffer held before is not
taken for more of the file.

* `PolicyFile.loadsWhole_of_fits`: such a file is, whatever the router.
* `PolicyFile.fits_of_loadsWhole`: any other is not, by a router that tells the trees it
  is given from those it expects (`expecting`).
* `PolicyFile.loadsWhole_iff`: both.
-/

namespace Cube.Policies

open Lib Json

/-! ## Files that fit the buffer -/

/-- What the buffer holds behind the blanks that are left of a file, after its last
    policy: nothing, if they come to the end of the buffer or were in it all; else what
    it held there before. -/
def PolicyText.stale (p : PolicyText) (blanks : List Char) : List Char :=
  Sliding.staleAfter BUFFER_SIZE (p.text ++ blanks) p.text.length

/-- The last policy of a file is loaded. If it fits the buffer, with the blanks before it,
    the blanks after it are few, or are all that the buffer holds then, or are refused
    with what it holds behind them. If not, the part in the buffer has the same tree. -/
def PolicyText.LastFits (p : PolicyText) (blanks : List Char) : Prop :=
  if p.text.length ≤ BUFFER_SIZE then
    blanks.length ≤ DIGEST_SIZE ∨ p.stale blanks = [] ∨
      ∃ e, jsonSolveStr (blanks ++ p.stale blanks ++ ['\x00']) = .error e
  else jsonSolveStr (p.text.take BUFFER_SIZE ++ ['\x00']) = .done (BUFFER_SIZE, some p.root)

/-- The policies of a file fit the buffer, each with the blanks before it; the last may
    lack what does not change its tree. -/
def PolicyFile.FitsWindow (f : PolicyFile) : Prop :=
  (∀ p ∈ f.policies.dropLast, p.text.length ≤ BUFFER_SIZE) ∧
    ∀ p ∈ f.policies.getLast?, p.LastFits f.blanks

/-! ## Policies one after the other -/

section Policies

variable {σ π : Type} {router : Router σ π}

theorem loadPolicies_append {before after : List JsonNode} {loaded : Loaded σ}
    (h : ReadsAll router (before ++ after) loaded) :
    ∃ loaded', ReadsAll router before loaded ∧
      loadPolicies router before loaded = .done loaded' ∧ ReadsAll router after loaded' ∧
      loadPolicies router (before ++ after) loaded = loadPolicies router after loaded' := by
  induction before generalizing loaded with
  | nil => exact ⟨loaded, trivial, rfl, h, rfl⟩
  | cons root before ih =>
    obtain ⟨loaded₁, hread, hrest⟩ := h
    obtain ⟨loaded', hbefore, hload, hafter, hall⟩ := ih hrest
    refine ⟨loaded', ⟨loaded₁, hread, hbefore⟩, ?_, hafter, ?_⟩
    · rw [loadPolicies, hread]
      exact hload
    · rw [List.cons_append, loadPolicies, hread]
      exact hall

theorem length_le_texts (policies : List PolicyText) :
    policies.length ≤ (texts policies).length := by
  induction policies with
  | nil => exact Nat.zero_le _
  | cons p policies ih =>
    have hlong := p.length_gt
    have heq : texts (p :: policies) = p.text ++ texts policies := rfl
    rw [heq, List.length_append, List.length_cons]
    omega

theorem texts_append (before after : List PolicyText) :
    texts (before ++ after) = texts before ++ texts after := by
  simp [texts]

/-- The loader after the policies at the start of a file, that fit the buffer. -/
theorem readDispatchFile_policies {before : List PolicyText} (rest : List Char) {s : σ}
    (hrest : '\x00' ∉ rest) (hlen : 2 ≤ rest.length)
    (hfit : ∀ p ∈ before, p.text.length ≤ BUFFER_SIZE)
    (hread : ReadsAll router (roots before) ⟨0, s⟩) :
    ∃ l stale fuel, l.window.Holds BUFFER_SIZE '\x00' rest stale ∧ '\x00' ∉ stale ∧
      loadPolicies router (roots before) ⟨0, s⟩ = .done l.loaded ∧
      readDispatchFile router (texts before ++ rest) s = readLoop router (fuel + 3) l := by
  obtain ⟨l, stale, hholds, hstale, -, hload, hloop⟩ :=
    readLoop_policies (l := ⟨.start BUFFER_SIZE '\x00' (texts before ++ rest), none, ⟨0, s⟩⟩)
      (Sliding.holds_start _ _ _) hrest List.not_mem_nil hfit hread
  have hle := length_le_texts before
  obtain ⟨fuel, hfuel⟩ : ∃ fuel, (texts before ++ rest).length + 1 = fuel + 3 + before.length := by
    refine ⟨(texts before ++ rest).length - 2 - before.length, ?_⟩
    rw [List.length_append]
    omega
  exact ⟨l, stale, fuel, hholds, hstale, hload, by rw [readDispatchFile, hfuel, hloop]⟩

end Policies

/-! ## Files that are loaded -/

variable {stale rest : List Char} {p : PolicyText} {trees : List JsonNode} {root : JsonNode}
  {n fuel : Nat}

/-- The end of the file, where it fits. -/
theorem readLoop_end {σ π : Type} {router : Router σ π} {l : Loader σ} {blanks : List Char}
    (h : l.window.Holds BUFFER_SIZE '\x00' blanks stale) (hblanks : ∀ c ∈ blanks, isSplitChar c)
    (hstale : '\x00' ∉ stale) (hfit : blanks.length ≤ DIGEST_SIZE ∨ stale = [] ∨
      ∃ e, jsonSolveStr (blanks ++ stale ++ ['\x00']) = .error e) (fuel : Nat) :
    readLoop router (fuel + 1) l = .done l.loaded := by
  have hnul := not_nul_blanks hblanks
  by_cases hnil : stale = []
  · subst hnil
    exact readLoop_blanks h (fun c hc => hblanks c (List.mem_of_mem_take hc)) hnul fuel
  -- Something is behind the rest of the file, which is all in the buffer then.
  have hshort : blanks.length < BUFFER_SIZE := by
    by_contra hlong
    exact hnil (h.stale_eq (by rw [h.finished_eq, decide_eq_false hlong]))
  have htake : blanks.take BUFFER_SIZE = blanks := List.take_of_length_le (Nat.le_of_lt hshort)
  rcases hfit with hfew | hnil' | ⟨e, he⟩
  · rw [readLoop, if_pos]
    rwa [h.leftlen_eq, htake]
  · exact absurd hnil' hnil
  · refine readLoop_error (e := e) ?_ fuel
    rw [cText_eq h hnul hstale, htake, he]

/-- A part of the last policy is left in the file, and ends the loop. -/
theorem readLoop_cut {σ π : Type} (router : Router σ π) {l : Loader σ}
    (hlong : ¬ p.text.length ≤ BUFFER_SIZE)
    (hsolve : jsonSolveStr (p.text.take BUFFER_SIZE ++ ['\x00']) = .done (BUFFER_SIZE, some p.root))
    (hrest : '\x00' ∉ rest) (hstale : '\x00' ∉ stale)
    (h : l.window.Holds BUFFER_SIZE '\x00' (p.text.drop BUFFER_SIZE ++ rest) stale) (fuel : Nat) :
    readLoop router (fuel + 1) l = .done l.loaded := by
  have hdoc := p.document
  have hnul := p.document.not_nul
  have hmore : p.text.drop BUFFER_SIZE ≠ [] := by
    intro hnil
    exact hlong (List.drop_eq_nil_iff.1 hnil)
  rw [← List.take_append_drop BUFFER_SIZE p.text] at hdoc hnul
  obtain ⟨-, root, hroot, hblanks⟩ := hdoc.of_cut hnul hmore hsolve
  obtain ⟨blanks, k, hall, heq⟩ := hblanks (Option.some.inj hroot).symm
  rw [heq, List.append_assoc, List.singleton_append] at h
  exact readLoop_closing h hall hrest hstale fuel

/-- The window at a policy that does not fit the buffer. -/
theorem holds_cut {σ : Type} {l : Loader σ}
    (hlong : ¬ p.text.length ≤ BUFFER_SIZE) (hrest : '\x00' ∉ rest)
    (h : l.window.Holds BUFFER_SIZE '\x00' (p.text ++ rest) stale) :
    cText l.window.buffer = p.text.take BUFFER_SIZE ++ ['\x00'] ∧
      l.window.leftlen = BUFFER_SIZE ∧
      ((l.window.shift '\x00' BUFFER_SIZE).refill BUFFER_SIZE).Holds BUFFER_SIZE '\x00'
        (p.text.drop BUFFER_SIZE ++ rest)
        (Sliding.staleAfter BUFFER_SIZE (p.text ++ rest) BUFFER_SIZE) := by
  have hle : BUFFER_SIZE ≤ p.text.length := Nat.le_of_lt (Nat.not_le.1 hlong)
  have hnul : '\x00' ∉ p.text ++ rest := by simp [p.document.not_nul, hrest]
  obtain rfl : stale = [] := by
    refine h.stale_eq ?_
    rw [h.finished_eq, decide_eq_false_iff_not, List.length_append]
    omega
  have htake : (p.text ++ rest).take BUFFER_SIZE = p.text.take BUFFER_SIZE :=
    List.take_append_of_le_length hle
  have hleft : l.window.leftlen = BUFFER_SIZE := by
    rw [h.leftlen_eq, htake, List.length_take_of_le hle]
  have hnext := h.next (Nat.le_of_eq hleft.symm)
  rw [List.drop_append_of_le_length hle] at hnext
  refine ⟨?_, hleft, hnext⟩
  rw [cText_eq h hnul List.not_mem_nil, htake, List.append_nil]

/-- A file whose policies fit the buffer is loaded as from its whole text. -/
theorem PolicyFile.loadsWhole_of_fits {f : PolicyFile} (h : f.FitsWindow) : f.LoadsWhole := by
  intro σ π router s hread
  obtain ⟨policies, blanks, hblanks⟩ := f
  obtain ⟨hinit, hlast⟩ := h
  have hnul := not_nul_blanks hblanks
  rcases List.eq_nil_or_concat policies with rfl | ⟨before, p, rfl⟩
  · -- There is nothing in the file but blanks.
    exact readLoop_end (Sliding.holds_start _ _ _) hblanks List.not_mem_nil (.inr (.inl rfl)) _
  rw [List.concat_eq_append] at *
  simp only [List.dropLast_concat, List.getLast?_concat, Option.mem_def, Option.some.injEq,
    forall_eq'] at hinit hlast
  have hroots : roots (before ++ [p]) = roots before ++ [p.root] := by simp [roots]
  have htext : texts (before ++ [p]) ++ blanks = texts before ++ (p.text ++ blanks) := by
    simp [texts]
  rw [hroots] at hread ⊢
  obtain ⟨loaded, hbefore, hload, ⟨loaded', hp, -⟩, hall⟩ := loadPolicies_append hread
  have hlong := p.length_gt
  obtain ⟨l, stale, fuel, hholds, hstale, hl, hloop⟩ := readDispatchFile_policies
    (p.text ++ blanks) (by simp [p.document.not_nul, hnul])
    (by rw [List.length_append]; omega) hinit hbefore
  obtain rfl : loaded = l.loaded := by
    rw [hload, Outcome.done.injEq] at hl
    exact hl
  have hleft := leftlen_gt hholds
  have hspec : loadPolicies router [p.root] l.loaded = .done loaded' := by
    rw [loadPolicies, hp]
    rfl
  rw [PolicyFile.text, htext, hloop, hall, hspec]
  unfold PolicyText.LastFits at hlast
  split_ifs at hlast with hfit
  · obtain ⟨window, hwindow, hturn⟩ := readTurn_document router p hholds hnul hstale hfit
    have hnul' : '\x00' ∉ p.text ++ blanks := by simp [p.document.not_nul, hnul]
    rw [readLoop_succ hleft hturn hp]
    exact readLoop_end (l := ⟨window, some p.root, loaded'⟩) hwindow hblanks
      (Sliding.not_mem_staleAfter hnul' _) hlast _
  · obtain ⟨hctext, hlen, hnext⟩ := holds_cut hfit hnul hholds
    have hnul' : '\x00' ∉ p.text ++ blanks := by simp [p.document.not_nul, hnul]
    have hturn := readTurn_root router (hctext ▸ hlast) (Nat.le_of_eq hlen.symm) (by decide)
    rw [readLoop_succ hleft hturn hp]
    exact readLoop_cut router (l := ⟨_, some p.root, loaded'⟩) hfit hlast hnul
      (Sliding.not_mem_staleAfter hnul' _) hnext _

/-! ## Files that are not loaded -/

/-- A router that reads the policies of the given trees, in their order, and no others:
    its state is the number of those that it has read. -/
noncomputable def expecting (trees : List JsonNode) : Router Nat Unit where
  routeReadPolicy node n :=
    haveI := Classical.propDecidable (trees[n]? = some node ∧ node.elemType = .map)
    if trees[n]? = some node ∧ node.elemType = .map then .done (some (), n + 1)
    else .done (none, n)
  routePathGetstate _ := 0x01
  routeAddPolicy _ n := n
  read_no_map _ _ h := if_neg fun hmap => h hmap.2

theorem readPolicy_expected (h : trees[n]? = some root) (hmap : root.elemType = .map) :
    readPolicy (expecting trees) root ⟨n, n⟩ = .done (true, ⟨n + 1, n + 1⟩) := by
  have hread : (expecting trees).routeReadPolicy root n = .done (some (), n + 1) :=
    if_pos ⟨h, hmap⟩
  simp only [readPolicy, hread]
  rfl

theorem readPolicy_unexpected (h : trees[n]? ≠ some root) :
    readPolicy (expecting trees) root ⟨n, n⟩ = .done (false, ⟨n, n⟩) := by
  have hread : (expecting trees).routeReadPolicy root n = .done (none, n) :=
    if_neg fun h' => h h'.1
  simp only [readPolicy, hread]
  rfl

/-- The trees that are expected next are read. -/
theorem expecting_reads {after : List JsonNode} (before : List JsonNode)
    (policies : List PolicyText) (h : trees = before ++ (roots policies ++ after)) :
    ReadsAll (expecting trees) (roots policies) ⟨before.length, before.length⟩ ∧
      loadPolicies (expecting trees) (roots policies) ⟨before.length, before.length⟩ =
        .done ⟨before.length + policies.length, before.length + policies.length⟩ := by
  induction policies generalizing before with
  | nil => exact ⟨trivial, rfl⟩
  | cons p policies ih =>
    have hnext : trees[before.length]? = some p.root := by
      rw [h, List.getElem?_append_right (Nat.le_refl _), Nat.sub_self]
      rfl
    have hread := readPolicy_expected hnext p.elemType_eq
    have heq : trees = (before ++ [p.root]) ++ (roots policies ++ after) := by
      rw [h, List.append_assoc]
      rfl
    obtain ⟨hreads, hload⟩ := ih (before ++ [p.root]) heq
    rw [List.length_append, List.length_singleton] at hreads hload
    refine ⟨⟨_, hread, hreads⟩, ?_⟩
    have hcons : roots (p :: policies) = p.root :: roots policies := rfl
    rw [hcons, loadPolicies, hread, List.length_cons, ← Nat.add_assoc, Nat.add_right_comm]
    exact hload

/-- The number of the policies never goes down. -/
theorem count_le_of_readPolicy {σ π : Type} {router : Router σ π}
    {loaded loaded' : Loaded σ} {more : Bool}
    (h : readPolicy router root loaded = .done (more, loaded')) : loaded.count ≤ loaded'.count := by
  obtain ⟨⟨policy, state⟩, -, h⟩ := Outcome.bind_eq_done.1 h
  rcases policy with _ | policy
  · cases h
    exact Nat.le_refl _
  · simp only at h
    split_ifs at h
    · cases h
      exact Nat.le_refl _
    · cases h
      exact Nat.le_succ _

theorem count_le_of_readTurn {σ π : Type} {router : Router σ π} {l l' : Loader σ} {more : Bool}
    (h : readTurn router l = .done (more, l')) : l.loaded.count ≤ l'.loaded.count := by
  unfold readTurn at h
  split at h
  · cases h
  · cases h
    exact Nat.le_refl _
  · simp only at h
    split_ifs at h
    · cases h
      exact Nat.le_refl _
    · split at h
      · cases h
      · obtain ⟨⟨more', loaded⟩, hread, h⟩ := Outcome.bind_eq_done.1 h
        cases h
        exact count_le_of_readPolicy hread

theorem count_le_of_readLoop {σ π : Type} {router : Router σ π} {l : Loader σ}
    {loaded : Loaded σ} (h : readLoop router fuel l = .done loaded) :
    l.loaded.count ≤ loaded.count := by
  induction fuel generalizing l with
  | zero => cases h
  | succ fuel ih =>
    rw [readLoop] at h
    split_ifs at h
    · cases h
      exact Nat.le_refl _
    · obtain ⟨⟨more, l'⟩, hturn, h⟩ := Outcome.bind_eq_done.1 h
      have hle := count_le_of_readTurn hturn
      rcases more with _ | _
      · cases h
        exact hle
      · exact Nat.le_trans hle (ih h)

/-- A policy that does not fit the buffer is read only if it is the last, and the part
    in the buffer has its tree. -/
theorem last_of_readLoop {l : Loader Nat} {total : Nat} (hlong : ¬ p.text.length ≤ BUFFER_SIZE)
    (hrest : '\x00' ∉ rest) (h : l.window.Holds BUFFER_SIZE '\x00' (p.text ++ rest) stale)
    (hloaded : l.loaded = ⟨n, n⟩) (hroot : trees[n]? = some p.root) (hlt : n < total)
    (hloop : readLoop (expecting trees) (fuel + 2) l = .done ⟨total, total⟩) :
    jsonSolveStr (p.text.take BUFFER_SIZE ++ ['\x00']) = .done (BUFFER_SIZE, some p.root) ∧
      total = n + 1 := by
  obtain ⟨hctext, hlen, hnext⟩ := holds_cut hlong hrest h
  have hnul' : '\x00' ∉ p.text ++ rest := by simp [p.document.not_nul, hrest]
  have hleft : DIGEST_SIZE < l.window.leftlen := by
    rw [hlen]
    decide
  -- A loop that ends here has not read the policy.
  have hends : readLoop (expecting trees) (fuel + 2) l ≠ .done l.loaded := by
    rw [hloop, hloaded]
    intro heq
    have hcount := congrArg Loaded.count (Outcome.done.inj heq)
    simp only at hcount
    omega
  have hdoc := p.document
  have hnul := p.document.not_nul
  have hmore : p.text.drop BUFFER_SIZE ≠ [] := fun hnil => hlong (List.drop_eq_nil_iff.1 hnil)
  rw [← List.take_append_drop BUFFER_SIZE p.text] at hdoc hnul
  rcases hsolve : jsonSolveStr (p.text.take BUFFER_SIZE ++ ['\x00']) with ⟨readlen, tree⟩ | e | _
  · obtain ⟨rfl, root, rfl, -⟩ := hdoc.of_cut hnul hmore hsolve
    have htake : (p.text.take BUFFER_SIZE).length = BUFFER_SIZE :=
      List.length_take_of_le (Nat.le_of_lt (Nat.not_le.1 hlong))
    rw [htake] at hsolve ⊢
    by_cases hsame : root = p.root
    · subst hsame
      have hread := readPolicy_expected hroot p.elemType_eq
      rw [← hloaded] at hread
      have hturn := readTurn_root (expecting trees) (hctext ▸ hsolve) (Nat.le_of_eq hlen.symm)
        (by decide)
      generalize (l.window.shift '\x00' BUFFER_SIZE).refill BUFFER_SIZE = window at hnext hturn
      have hend := readLoop_cut (expecting trees) (l := ⟨window, some p.root, ⟨n + 1, n + 1⟩⟩)
        hlong hsolve hrest (Sliding.not_mem_staleAfter hnul' _) hnext fuel
      rw [readLoop_succ hleft hturn hread, hend] at hloop
      exact ⟨rfl, (congrArg Loaded.count (Outcome.done.inj hloop)).symm⟩
    · have hother : trees[n]? ≠ some root := by
        rw [hroot]
        exact fun h => hsame (Option.some.inj h).symm
      have hread := readPolicy_unexpected hother
      rw [← hloaded] at hread
      exact absurd (readLoop_refused (hctext ▸ hsolve) (Nat.le_of_eq hlen.symm) (by decide)
        hread _) hends
  · exact absurd (readLoop_error (hctext ▸ hsolve) _) hends
  · have hturn : readTurn (expecting trees) l = .fault := by
      simp only [readTurn, hctext, hsolve]
    rw [readLoop, if_neg (Nat.not_le.2 hleft), hturn] at hloop
    cases hloop

/-- A tree of what starts with blanks takes more than these. -/
theorem length_lt_of_solve {blanks : List Char} (hblanks : ∀ c ∈ blanks, isSplitChar c)
    (hs : '\x00' ∉ blanks ++ stale) (hne : stale ≠ []) {readlen : Nat}
    (h : jsonSolveStr (blanks ++ stale ++ ['\x00']) = .done (readlen, some root)) :
    blanks.length < readlen := by
  rcases jsonSolveStr_cases hs with
    ⟨doc, rest, root', heq, hdoc, hr⟩ | ⟨-, root', hr⟩ | hr | ⟨-, ret, hr⟩ | ⟨-, hr⟩
  · rw [hr] at h
    cases h
    exact hdoc.length_lt hblanks heq
  · rw [hr] at h
    cases h
    rw [List.length_append]
    exact Nat.lt_add_of_pos_right (List.length_pos_of_ne_nil hne)
  all_goals
    rw [hr] at h
    cases h

/-- What the buffer holds behind the blanks at the end of the file is refused, or the
    loop does not end there. -/
theorem refused_of_readLoop {σ π : Type} {router : Router σ π} {l : Loader σ}
    {blanks : List Char} {loaded : Loaded σ}
    (h : l.window.Holds BUFFER_SIZE '\x00' blanks stale) (hblanks : ∀ c ∈ blanks, isSplitChar c)
    (hstale : '\x00' ∉ stale) (hne : stale ≠ []) (hlen : DIGEST_SIZE < blanks.length)
    (hroot : l.rootNode = some root)
    (hread : readPolicy router root l.loaded = .done (true, loaded))
    (hcount : l.loaded.count < loaded.count) {result : Loaded σ}
    (hloop : readLoop router (fuel + 1) l = .done result)
    (hresult : result.count = l.loaded.count) :
    ∃ e, jsonSolveStr (blanks ++ stale ++ ['\x00']) = .error e := by
  have hnul := not_nul_blanks hblanks
  have hshort : blanks.length < BUFFER_SIZE := by
    by_contra hlong
    exact hne (h.stale_eq (by rw [h.finished_eq, decide_eq_false hlong]))
  have htake : blanks.take BUFFER_SIZE = blanks := List.take_of_length_le (Nat.le_of_lt hshort)
  have hleft : l.window.leftlen = blanks.length := by rw [h.leftlen_eq, htake]
  have hctext := cText_eq h hnul hstale
  rw [htake] at hctext
  rw [readLoop, if_neg (by omega)] at hloop
  obtain ⟨⟨more, l'⟩, hturn, hmore⟩ := Outcome.bind_eq_done.1 hloop
  rcases hsolve : jsonSolveStr (blanks ++ stale ++ ['\x00']) with ⟨readlen, tree⟩ | e | _
  · simp only [readTurn, hctext, hsolve] at hturn
    split_ifs at hturn with hover hfew
    · -- The value of a text without a root is that of a long name.
      rcases tree with _ | tree
      · exact absurd (jsonSolveStr_none hsolve) (Nat.not_le.2 hfew)
      · have hlt := length_lt_of_solve hblanks (by simp [hnul, hstale]) hne hsolve
        omega
    · rcases tree with _ | tree
      · -- The root before is taken for that of a further policy.
        rw [Option.none_or, hroot] at hturn
        simp only [hread, Outcome.done_bind] at hturn
        cases hturn
        have hle := count_le_of_readLoop hmore
        simp only at hle
        omega
      · have hlt := length_lt_of_solve hblanks (by simp [hnul, hstale]) hne hsolve
        omega
  · exact ⟨e, rfl⟩
  · rw [readTurn, hctext, hsolve] at hturn
    cases hturn

/-- The first policy of a file that does not fit the buffer. -/
theorem exists_first_long {policies : List PolicyText}
    (h : ¬ ∀ p ∈ policies, p.text.length ≤ BUFFER_SIZE) :
    ∃ before p rest, policies = before ++ p :: rest ∧
      (∀ q ∈ before, q.text.length ≤ BUFFER_SIZE) ∧ ¬ p.text.length ≤ BUFFER_SIZE := by
  induction policies with
  | nil => exact absurd (fun _ hp => absurd hp List.not_mem_nil) h
  | cons p policies ih =>
    by_cases hp : p.text.length ≤ BUFFER_SIZE
    · rw [List.forall_mem_cons, not_and] at h
      obtain ⟨before, q, rest, rfl, hbefore, hq⟩ := ih (h hp)
      exact ⟨p :: before, q, rest, rfl, List.forall_mem_cons.2 ⟨hp, hbefore⟩, hq⟩
    · exact ⟨[], p, policies, rfl, by simp, hp⟩

/-- The run of the loader over the policies at the start of a file, by a router that
    expects them. -/
theorem expecting_run {before rest : List PolicyText} (after : List JsonNode)
    {blanks : List Char} (hrest : rest ≠ []) (htrees : trees = roots (before ++ rest) ++ after)
    (hfit : ∀ q ∈ before, q.text.length ≤ BUFFER_SIZE) (hblanks : ∀ c ∈ blanks, isSplitChar c)
    (h : PolicyFile.LoadsWhole ⟨before ++ rest, blanks, hblanks⟩) :
    ∃ l stale fuel, l.window.Holds BUFFER_SIZE '\x00' (texts rest ++ blanks) stale ∧
      '\x00' ∉ stale ∧ l.loaded = ⟨before.length, before.length⟩ ∧
      readLoop (expecting trees) (fuel + 3) l =
        .done ⟨before.length + rest.length, before.length + rest.length⟩ := by
  have hall : trees = [] ++ (roots (before ++ rest) ++ after) := htrees
  have hbefore : trees = [] ++ (roots before ++ (roots rest ++ after)) := by
    simp [htrees, roots]
  obtain ⟨hreads, hload⟩ := expecting_reads [] (before ++ rest) hall
  obtain ⟨hreads', hload'⟩ := expecting_reads [] before hbefore
  simp only [List.length_nil, Nat.zero_add] at hreads hload hreads' hload'
  have hnul : '\x00' ∉ texts rest ++ blanks := by
    simp [not_nul_texts, not_nul_blanks hblanks]
  have hlen : 2 ≤ (texts rest ++ blanks).length := by
    obtain ⟨p, rest, rfl⟩ := List.exists_cons_of_ne_nil hrest
    have hlong := p.length_gt
    have heq : texts (p :: rest) = p.text ++ texts rest := rfl
    rw [heq, List.length_append, List.length_append]
    omega
  obtain ⟨l, stale, fuel, hholds, hstale, hloaded, hloop⟩ :=
    readDispatchFile_policies (texts rest ++ blanks) hnul hlen hfit hreads'
  refine ⟨l, stale, fuel, hholds, hstale, ?_, ?_⟩
  · rw [hload', Outcome.done.injEq] at hloaded
    exact hloaded.symm
  · rw [← hloop, ← List.length_append, ← hload, ← h (expecting trees) 0 hreads, PolicyFile.text,
      texts_append, List.append_assoc]

/-- A file that is loaded as from its whole text, whatever the router, fits the buffer. -/
theorem PolicyFile.fits_of_loadsWhole {f : PolicyFile} (h : f.LoadsWhole) : f.FitsWindow := by
  obtain ⟨policies, blanks, hblanks⟩ := f
  have hnul := not_nul_blanks hblanks
  by_cases hall : ∀ p ∈ policies, p.text.length ≤ BUFFER_SIZE
  · rcases List.eq_nil_or_concat policies with rfl | ⟨before, p, rfl⟩
    · exact ⟨by simp, by simp⟩
    rw [List.concat_eq_append] at *
    have hp := hall p (by simp)
    have hbefore : ∀ q ∈ before, q.text.length ≤ BUFFER_SIZE := fun q hq =>
      hall q (List.mem_append_left _ hq)
    refine ⟨by simpa using hbefore, ?_⟩
    simp only [List.getLast?_concat, Option.mem_def, Option.some.injEq, forall_eq']
    rw [PolicyText.LastFits, if_pos hp]
    by_cases hfew : blanks.length ≤ DIGEST_SIZE
    · exact .inl hfew
    by_cases hstale : p.stale blanks = []
    · exact .inr (.inl hstale)
    -- The router would read the last policy again.
    obtain ⟨l, stale, fuel, hholds, hnul', hloaded, hloop⟩ := expecting_run [p.root]
      (List.cons_ne_nil p []) rfl hbefore hblanks h
    generalize htrees : roots (before ++ [p]) ++ [p.root] = trees at hloop
    have htrees' : trees = roots before ++ [p.root, p.root] := by
      rw [← htrees]
      simp [roots]
    have hlength : (roots before).length = before.length := List.length_map _
    have hnext : trees[before.length]? = some p.root := by
      rw [htrees', ← hlength, List.getElem?_append_right (Nat.le_refl _), Nat.sub_self]
      rfl
    have hagain : trees[before.length + 1]? = some p.root := by
      rw [htrees', ← hlength, List.getElem?_append_right (Nat.le_succ _),
        Nat.succ_sub (Nat.le_refl _), Nat.sub_self]
      rfl
    have htext : texts [p] ++ blanks = p.text ++ blanks := by simp [texts]
    rw [htext] at hholds
    obtain ⟨window, hwindow, hturn⟩ :=
      readTurn_document (expecting trees) p hholds hnul hnul' hp
    have hread := readPolicy_expected hnext p.elemType_eq
    rw [← hloaded] at hread
    rw [readLoop_succ (leftlen_gt hholds) hturn hread] at hloop
    have hnul'' : '\x00' ∉ p.text ++ blanks := by simp [p.document.not_nul, hnul]
    exact .inr (.inr (refused_of_readLoop
      (l := ⟨window, some p.root, ⟨before.length + 1, before.length + 1⟩⟩) hwindow hblanks
      (Sliding.not_mem_staleAfter hnul'' _) hstale (Nat.not_le.1 hfew) rfl
      (readPolicy_expected hagain p.elemType_eq) (Nat.lt_succ_self _) hloop rfl))
  · obtain ⟨before, p, rest, rfl, hbefore, hp⟩ := exists_first_long hall
    obtain ⟨l, stale, fuel, hholds, hstale, hloaded, hloop⟩ := expecting_run []
      (List.cons_ne_nil p rest) rfl hbefore hblanks h
    generalize htrees : roots (before ++ p :: rest) ++ [] = trees at hloop
    have hnext : trees[before.length]? = some p.root := by
      rw [← htrees]
      simp [roots]
    have htext : texts (p :: rest) ++ blanks = p.text ++ (texts rest ++ blanks) :=
      List.append_assoc _ _ _
    rw [htext] at hholds
    obtain ⟨hsolve, htotal⟩ := last_of_readLoop hp (by simp [not_nul_texts, hnul]) hholds hloaded
      hnext (by simp) hloop
    obtain rfl : rest = [] := by
      refine List.length_eq_zero_iff.1 ?_
      rw [List.length_cons] at htotal
      omega
    refine ⟨by simpa using hbefore, ?_⟩
    simp only [List.getLast?_concat, Option.mem_def, Option.some.injEq, forall_eq']
    rw [PolicyText.LastFits, if_neg hp]
    exact hsolve

/-- A policy file is loaded as from its whole text, whatever the router, exactly if its
    policies fit the buffer, and nothing behind its end is taken for more of it. -/
theorem PolicyFile.loadsWhole_iff (f : PolicyFile) : f.LoadsWhole ↔ f.FitsWindow :=
  ⟨fits_of_loadsWhole, loadsWhole_of_fits⟩

/-! ## A policy that is lost -/

theorem Document.blanks {falsehood : Option Int} {blanks doc : List Char}
    (h : Document falsehood doc root) (hblanks : ∀ c ∈ blanks, isSplitChar c) :
    Document falsehood (blanks ++ doc) root := by
  obtain ⟨blanks', k, text, nodes, rfl, hblanks', hitems, rfl⟩ := h
  refine ⟨blanks ++ blanks', k, text, nodes, by simp, fun c hc => ?_, hitems, rfl⟩
  rcases List.mem_append.1 hc with hc | hc
  · exact hblanks c hc
  · exact hblanks' c hc

/-- The policy with more blanks before it. -/
def PolicyText.behind (p : PolicyText) (blanks : List Char)
    (hblanks : ∀ c ∈ blanks, isSplitChar c) : PolicyText :=
  { p with
    text := blanks ++ p.text
    document := Document.blanks p.document hblanks }

/-- The member of a map that is an empty container. -/
def emptyMember (name : String) (k : Container) : List Char :=
  '"' :: (name.toList ++ ['"', ':', k.opening, k.closing])

/-- The items of a map go on after a member that is an empty container. -/
theorem Items.emptyMember {name : String} {k : Container} {text after : List Char}
    {nodes : List JsonNode} (hplain : Plain name.toList) (hnul : '\x00' ∉ name.toList)
    (hlen : name.toList.length + 2 < DIGEST_SIZE) (h : Items (some 1) .map text nodes after) :
    Items (some 1) .map (emptyMember name k ++ text)
      (Container.map.child name.toList k :: nodes) after := by
  have hlead : Lead .map ('"' :: (name.toList ++ '"' :: ([] ++ ':' :: []))) name.toList :=
    .member (hplain.chars hnul) hlen (by simp) (by simp)
  have hnest := Items.nest hlead (.close : Items (some 1) k (k.closing :: text) [] text) h
  rw [JsonNode.extend_nil] at hnest
  simpa [Cube.Policies.emptyMember] using hnest

/-- A policy of empty members. -/
def emptyPolicy : PolicyText where
  text := '\x7b' :: (emptyMember "policy_head" .map ++ (',' :: (emptyMember "MATCH_RULES" .array ++
    (',' :: (emptyMember "ROUTE_RULES" .map ++ ['\x7d'])))))
  root := Container.map.rootNode.extend [Container.map.child "policy_head".toList .map,
    Container.map.child "MATCH_RULES".toList .array,
    Container.map.child "ROUTE_RULES".toList .map]
  document := ⟨[], .map, _, _, rfl, by simp,
    Items.emptyMember ⟨by decide, by decide⟩ (by decide) (by decide) (.blank rfl
      (Items.emptyMember ⟨by decide, by decide⟩ (by decide) (by decide) (.blank rfl
        (Items.emptyMember ⟨by decide, by decide⟩ (by decide) (by decide) .close)))), rfl⟩
  elemType_eq := rfl
  members := by decide

/-- A policy does not fit behind as many blanks as the buffer holds. -/
theorem PolicyText.not_lastFits_behind (p : PolicyText) {blanks : List Char}
    (hblanks : ∀ c ∈ blanks, isSplitChar c) (hlen : BUFFER_SIZE ≤ blanks.length)
    (rest : List Char) : ¬ (p.behind blanks hblanks).LastFits rest := by
  intro h
  have htext : (p.behind blanks hblanks).text = blanks ++ p.text := rfl
  have hlong := p.length_gt
  rw [LastFits, htext, if_neg (by rw [List.length_append]; omega),
    List.take_append_of_le_length hlen,
    jsonSolveStr_blanks fun c hc => hblanks c (List.mem_of_mem_take hc)] at h
  -- The tree of blanks has no type.
  have hroot : some {} = some p.root := congrArg Prod.snd (Outcome.done.inj h)
  have htype := congrArg JsonNode.elemType (Option.some.inj hroot)
  rw [p.elemType_eq] at htype
  cases htype

theorem isSplitChar_of_mem_replicate :
    ∀ c ∈ List.replicate n ' ', isSplitChar c := by
  intro c hc
  rw [List.eq_of_mem_replicate hc]
  rfl

/-- Two policies with `n` blanks between them. -/
def twoPolicies (n : Nat) : PolicyFile where
  policies := [emptyPolicy,
    emptyPolicy.behind (List.replicate n ' ') isSplitChar_of_mem_replicate]
  blanks := []
  isSplitChar_blanks := by simp

/-- The second of two policies is lost if the buffer is full of the blanks between them. -/
theorem twoPolicies_not_loaded (hn : BUFFER_SIZE ≤ n) :
    ¬ (twoPolicies n).LoadsWhole := by
  intro h
  refine emptyPolicy.not_lastFits_behind isSplitChar_of_mem_replicate ?_ []
    ((PolicyFile.fits_of_loadsWhole h).2 _ rfl)
  rwa [List.length_replicate]

theorem second_policy_lost : ¬ (twoPolicies BUFFER_SIZE).LoadsWhole :=
  twoPolicies_not_loaded (Nat.le_refl _)

end Cube.Policies
