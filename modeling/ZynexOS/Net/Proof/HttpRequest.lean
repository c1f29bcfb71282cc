import ZynexOS.Net.HttpRequest

/-!
# Requests to the web server: when only what was received is read
-/

namespace ZynexOS.Http

open Library

variable {data rest lit : List (BitVec 8)} {urlMem versionMem : Bool}

theorem strncmp_cons {p q : BitVec 8} (hq : q ≠ 0) :
    strncmp (p :: data) (q :: lit) =
      if p = q then (strncmp data lit).map fun (r, seen) => (r, seen + 1)
      else some ((p.toNat : Int) - q.toNat, 1) := by
  rw [strncmp]
  refine if_congr ⟨And.right, fun h => ⟨h ▸ hq, h⟩⟩ rfl rfl

theorem toNat_sub_ne_zero {p q : BitVec 8} (hne : p ≠ q) : (p.toNat : Int) - q.toNat ≠ 0 :=
  fun hzero => hne (BitVec.eq_of_toNat_eq (by omega))

theorem strncmp_append (hnul : 0 ∉ lit) (line : List (BitVec 8)) :
    strncmp (lit ++ line) lit = some (0, lit.length) := by
  induction lit with
  | nil => cases line <;> rfl
  | cons q lit ih =>
      obtain ⟨hq, hlit⟩ := not_or.mp (List.mem_cons.not.mp hnul)
      rw [List.cons_append, strncmp_cons (Ne.symm hq), if_pos rfl, ih hlit]
      rfl

theorem strncmp_differs (hnul : 0 ∉ lit) (hlit : ¬lit <+: data) (hdata : ¬data <+: lit)
    (rest : List (BitVec 8)) :
    ∃ r seen, strncmp (data ++ rest) lit = some (r, seen) ∧ r ≠ 0 ∧ seen ≤ data.length := by
  induction lit generalizing data with
  | nil => exact absurd List.nil_prefix hlit
  | cons q lit ih =>
      obtain ⟨hq, hnul'⟩ := not_or.mp (List.mem_cons.not.mp hnul)
      cases data with
      | nil => exact absurd List.nil_prefix hdata
      | cons p data =>
          rw [List.cons_append, strncmp_cons (Ne.symm hq)]
          split
          · next heq =>
              subst heq
              rw [List.prefix_cons_inj] at hlit hdata
              obtain ⟨r, seen, hrun, hr, hseen⟩ := ih hnul' hlit hdata
              exact ⟨r, seen + 1, by rw [hrun]; rfl, hr, Nat.succ_le_succ hseen⟩
          · next hne => exact ⟨_, 1, rfl, toNat_sub_ne_zero hne, Nat.le_add_left 1 _⟩

theorem strncmp_short {q : BitVec 8} (hnul : 0 ∉ data ++ q :: lit) (rest : List (BitVec 8)) :
    strncmp (data ++ 0 :: rest) (data ++ q :: lit) = some ((0 : Int) - q.toNat, data.length + 1) := by
  induction data with
  | nil =>
      obtain ⟨hq, -⟩ := not_or.mp (List.mem_cons.not.mp hnul)
      rw [List.nil_append, List.nil_append, strncmp_cons (Ne.symm hq), if_neg hq]
      rfl
  | cons p data ih =>
      obtain ⟨hp, hnul⟩ := not_or.mp (List.mem_cons.not.mp hnul)
      rw [List.cons_append, List.cons_append, strncmp_cons (Ne.symm hp), if_pos rfl, ih hnul]
      rfl

theorem stops {c stop : BitVec 8} (hc : c = 0 ∨ c = stop) : ¬decide (c ≠ 0 ∧ c ≠ stop) := by
  rw [decide_eq_true_iff]
  exact fun h => hc.elim h.1 h.2

theorem requestParse_line {url version after : List (BitVec 8)} {c c' : BitVec 8}
    (hurl : ∀ b ∈ url, b ≠ 0 ∧ b ≠ space) (hc : c = 0 ∨ c = space)
    (hversion : ∀ b ∈ version, b ≠ 0 ∧ b ≠ newline) (hc' : c' = 0 ∨ c' = newline) :
    requestParse urlMem versionMem (get ++ (url ++ c :: (version ++ c' :: after))) =
      if urlMem ∧ versionMem then
        some ⟨0, url, version, get.length + url.length + 1 + version.length + 1⟩
      else none := by
  have hskip : skipTo space (get ++ (url ++ c :: (version ++ c' :: after))) get.length =
      some (get.length + url.length) :=
    skipWhile_append get _ (fun b hb => decide_eq_true (hurl b hb)) (stops hc)
  have hfirst : get ++ (url ++ c :: (version ++ c' :: after)) =
      (get ++ url ++ [c]) ++ (version ++ c' :: after) := by
    simp
  have hlen : (get ++ url ++ [c]).length = get.length + url.length + 1 := by
    rw [List.length_append, List.length_append, List.length_singleton]
  have hskip' : skipTo newline ((get ++ url ++ [c]) ++ (version ++ c' :: after))
      (get ++ url ++ [c]).length = some ((get ++ url ++ [c]).length + version.length) :=
    skipWhile_append _ after (fun b hb => decide_eq_true (hversion b hb)) (stops hc')
  rw [← hfirst, hlen] at hskip'
  have hversionText : ((get ++ (url ++ c :: (version ++ c' :: after))).drop
      (get.length + url.length + 1)).take version.length = version := by
    rw [hfirst, ← hlen, List.drop_left, List.take_left]
  unfold requestParse
  rw [strncmp_append (by decide)]
  cases urlMem <;> cases versionMem <;>
    simp [hskip, hskip', hversionText, guard, failure]

theorem handleClient_of_ret {req : Request}
    (hreq : requestParse urlMem versionMem (data ++ rest) = some req) :
    ∃ reply, handleClient urlMem versionMem data rest = some (req, reply) := by
  unfold handleClient
  rw [hreq]
  exact ⟨_, rfl⟩

theorem expected_get (line : List (BitVec 8)) : expected (get ++ line) =
    (0, some (line.takeWhile (· ≠ space)),
      some (((line.dropWhile (· ≠ space)).drop 1).takeWhile (· ≠ newline))) := by
  unfold expected
  rw [if_pos (List.prefix_append _ _), List.drop_left]

theorem readsReceived_of_delimited (hdata : Delimited urlMem versionMem data) :
    ReadsReceived urlMem versionMem data := by
  intro rest _
  obtain ⟨hget, hshort⟩ | ⟨⟨url, version, after, rfl, hurl, hversion⟩, hmem, hmem'⟩ := hdata
  · obtain ⟨r, seen, hcmp, hr, hseen⟩ := strncmp_differs (by decide) hget hshort rest
    have hparse : requestParse urlMem versionMem (data ++ rest) =
        some ⟨-eBadReq, none, none, seen⟩ := by
      unfold requestParse
      rw [hcmp]
      exact if_pos hr
    obtain ⟨reply, hclient⟩ := handleClient_of_ret hparse
    exact ⟨_, reply, hclient, hseen, (if_neg hget).symm⟩
  · have hparse := @requestParse_line urlMem versionMem url version (after ++ rest) space newline hurl
      (.inr rfl) hversion (.inr rfl)
    have hassoc : get ++ (url ++ space :: (version ++ newline :: (after ++ rest))) =
        get ++ (url ++ space :: (version ++ newline :: after)) ++ rest := by
      simp
    rw [if_pos ⟨hmem, hmem'⟩, hassoc] at hparse
    obtain ⟨reply, hclient⟩ := handleClient_of_ret hparse
    refine ⟨_, reply, hclient, ?_, ?_⟩
    · simp only [List.length_append, List.length_cons]
      omega
    · rw [expected_get]
      have hspace : ∀ b ∈ url, decide (b ≠ space) := fun b hb => decide_eq_true (hurl b hb).2
      have hnewline : ∀ b ∈ version, decide (b ≠ newline) :=
        fun b hb => decide_eq_true (hversion b hb).2
      rw [List.takeWhile_append_of_pos hspace, List.dropWhile_append_of_pos hspace,
        List.takeWhile_cons_of_neg (by simp), List.dropWhile_cons_of_neg (by simp), List.drop_one,
        List.tail_cons, List.takeWhile_append_of_pos hnewline, List.takeWhile_cons_of_neg (by simp),
        List.append_nil, List.append_nil]

theorem exists_field (stop : BitVec 8) (line : List (BitVec 8)) :
    (∀ b ∈ line, b ≠ 0 ∧ b ≠ stop) ∨ ∃ field c rest, line = field ++ c :: rest ∧
      (∀ b ∈ field, b ≠ 0 ∧ b ≠ stop) ∧ (c = 0 ∨ c = stop) := by
  induction line with
  | nil => exact .inl nofun
  | cons b line ih =>
      by_cases hb : b ≠ 0 ∧ b ≠ stop
      · obtain hall | ⟨field, c, rest, rfl, hfield, hc⟩ := ih
        · exact .inl (List.forall_mem_cons.mpr ⟨hb, hall⟩)
        · exact .inr ⟨b :: field, c, rest, rfl, List.forall_mem_cons.mpr ⟨hb, hfield⟩, hc⟩
      · exact .inr ⟨[], b, line, rfl, nofun, by simpa [or_iff_not_imp_left] using hb⟩

theorem stop_of_takeWhile {field rest : List (BitVec 8)} {c stop : BitVec 8}
    (hfield : ∀ b ∈ field, b ≠ stop)
    (heq : field = (field ++ c :: rest).takeWhile (· ≠ stop)) : c = stop := by
  by_contra hc
  have hlen := congrArg List.length heq
  rw [List.takeWhile_append_of_pos fun b hb => decide_eq_true (hfield b hb),
    List.takeWhile_cons_of_pos (by simpa using hc), List.length_append, List.length_cons] at hlen
  omega

theorem delimited_of_readsReceived (hdata : ReadsReceived urlMem versionMem data) :
    Delimited urlMem versionMem data := by
  -- two NULs behind the data, so that the parser stops there
  let zeros := List.replicate buffSize (0 : BitVec 8)
  obtain ⟨req, reply, hclient, hseen, hexpected⟩ := hdata (0 :: 0 :: zeros) (by
    simp only [zeros, List.length_append, List.length_cons, List.length_replicate]
    omega)
  have hparse : requestParse urlMem versionMem (data ++ 0 :: 0 :: zeros) = some req := by
    obtain ⟨req', hreq', hpair⟩ := Option.bind_eq_some_iff.mp hclient
    cases hpair
    exact hreq'
  by_cases hget : get <+: data
  · right
    obtain ⟨line, rfl⟩ := hget
    rw [expected_get] at hexpected
    have hlook {url version after : List (BitVec 8)} {c c' : BitVec 8}
        (hline : line ++ 0 :: 0 :: zeros = url ++ c :: (version ++ c' :: after))
        (hurl : ∀ b ∈ url, b ≠ 0 ∧ b ≠ space) (hc : c = 0 ∨ c = space)
        (hversion : ∀ b ∈ version, b ≠ 0 ∧ b ≠ newline) (hc' : c' = 0 ∨ c' = newline) :
        (urlMem ∧ versionMem) ∧ req.url = some url ∧ req.version = some version ∧
          req.seen = get.length + url.length + 1 + version.length + 1 := by
      rw [List.append_assoc, hline, requestParse_line hurl hc hversion hc'] at hparse
      split at hparse
      · next hmem =>
          cases hparse
          exact ⟨hmem, rfl, rfl, rfl⟩
      · cases hparse
    rw [List.length_append] at hseen
    obtain hall | ⟨url, c, rest, rfl, hurl, hc⟩ := exists_field space line
    · obtain ⟨-, -, -, hbeyond⟩ := @hlook line [] zeros 0 0 rfl hall (.inl rfl) nofun (.inl rfl)
      omega
    rw [List.length_append, List.length_cons] at hseen
    obtain hall | ⟨version, c', after, rfl, hversion, hc'⟩ := exists_field newline rest
    · obtain ⟨-, -, -, hbeyond⟩ := @hlook url rest (0 :: zeros) c 0 (by simp) hurl hc hall (.inl rfl)
      omega
    obtain ⟨hmem, hurl', hversion', -⟩ := @hlook url version (after ++ 0 :: 0 :: zeros) c c' (by simp)
      hurl hc hversion hc'
    rw [hurl', hversion'] at hexpected
    obtain ⟨-, hfirst, hsecond⟩ := Prod.ext_iff.mp hexpected |>.imp_right Prod.ext_iff.mp
    obtain rfl := stop_of_takeWhile (fun b hb => (hurl b hb).2) (Option.some.inj hfirst)
    have hspace : ∀ b ∈ url, decide (b ≠ space) := fun b hb => decide_eq_true (hurl b hb).2
    rw [List.dropWhile_append_of_pos hspace, List.dropWhile_cons_of_neg (by simp), List.drop_one,
      List.tail_cons] at hsecond
    obtain rfl := stop_of_takeWhile (fun b hb => (hversion b hb).2) (Option.some.inj hsecond)
    exact ⟨⟨url, version, after, rfl, hurl, hversion⟩, hmem⟩
  · refine .inl ⟨hget, fun hshort => ?_⟩
    obtain ⟨tail, htail⟩ := hshort
    cases tail with
    | nil => exact hget ⟨[], by rw [List.append_nil, ← htail, List.append_nil]⟩
    | cons q lit =>
        have hnul : 0 ∉ data ++ q :: lit := by
          rw [htail]
          decide
        have hq : (0 : Int) - q.toNat ≠ 0 := toNat_sub_ne_zero fun (h0 : 0 = q) => hnul (by simp [h0])
        have hcmp := strncmp_short hnul (0 :: zeros)
        rw [htail] at hcmp
        unfold requestParse at hparse
        simp only [hcmp, Option.bind_eq_bind, Option.bind_some, if_pos hq] at hparse
        cases hparse
        exact Nat.not_succ_le_self _ hseen

/-- The parser reads only what was received, and reads it right, exactly when the data differs from
`"GET "` or has a complete first line without a NUL. -/
theorem readsReceived_iff (urlMem versionMem : Bool) (data : List (BitVec 8)) :
    ReadsReceived urlMem versionMem data ↔ Delimited urlMem versionMem data :=
  ⟨delimited_of_readsReceived, readsReceived_of_delimited⟩

/-- Of the request `GET /a` without a space behind the URL, what was in the buffer before becomes part
of the URL and the version. -/
theorem handleClient_stale :
    let data : List (BitVec 8) := [71, 69, 84, 32, 47, 97]
    let rest : List (BitVec 8) := [98, 32, 99, 10] ++ List.replicate 502 0
    (data ++ rest).length = buffSize ∧ handleClient true true data rest =
        some (⟨0, some [47, 97, 98], some [99], 10⟩, .sendFile) ∧
      expected data = (0, some [47, 97], some []) := by
  refine ⟨by rw [List.length_append, List.length_append, List.length_replicate]; rfl, ?_, by decide⟩
  have hparse := @requestParse_line true true [47, 97, 98] [99] (List.replicate 502 0) space newline
    (by decide) (.inr rfl) (by decide) (.inr rfl)
  have hmem : ([71, 69, 84, 32, 47, 97] ++ ([98, 32, 99, 10] ++ List.replicate 502 0) :
      List (BitVec 8)) = get ++ ([47, 97, 98] ++ space :: ([99] ++ newline :: List.replicate 502 0)) :=
    rfl
  unfold handleClient
  rw [hmem, hparse]
  rfl

end ZynexOS.Http
