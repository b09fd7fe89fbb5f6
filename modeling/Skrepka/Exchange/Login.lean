import Skrepka.Client.Authentic
import Skrepka.Client.State
import Skrepka.Relay.Service

/-! Logging in: a client signs for the host that it means to talk to, and a relay accepts nothing that was
signed for another one. -/
namespace Skrepka.Exchange
open Rust Client

/-- A host as a URL names it: in brackets, or without a colon. -/
def HostLike (h : List Char) : Prop :=
  (∃ inner, h = '[' :: (inner ++ [']']) ∧ ']' ∉ inner) ∨ ':' ∉ h ∧ h.head? ≠ some '['

theorem split_at_first {α : Type} {a : α} {xs ys us vs : List α} (hx : a ∉ xs) (hu : a ∉ us)
    (h : xs ++ a :: ys = us ++ a :: vs) : xs = us ∧ ys = vs := by
  induction xs generalizing us with
  | nil =>
    cases us with
    | nil => exact ⟨rfl,(List.cons.inj h).2⟩
    | cons u us =>
      obtain rfl := (List.cons.inj h).1
      exact absurd List.mem_cons_self hu
  | cons x xs ih =>
    cases us with
    | nil =>
      obtain rfl := (List.cons.inj h).1
      exact absurd List.mem_cons_self hx
    | cons u us =>
      obtain ⟨rfl,htail⟩ := List.cons.inj h
      obtain ⟨rfl,rfl⟩ := ih (fun hin => hx (List.mem_cons_of_mem _ hin))
        (fun hin => hu (List.mem_cons_of_mem _ hin)) htail
      exact ⟨rfl,rfl⟩

theorem not_bracket {h : List Char} (hplain : h.head? ≠ some '[') (c rest : List Char) :
    h ++ ':' :: c ≠ '[' :: rest := by
  cases h with
  | nil => simp
  | cons a h =>
    intro heq
    obtain rfl := (List.cons.inj heq).1
    exact hplain rfl

/-- A host and a challenge can be read back from what is signed. -/
theorem hostLike_inj {h h' c c' : List Char} (hh : HostLike h) (hh' : HostLike h')
    (heq : h ++ ':' :: c = h' ++ ':' :: c') : h = h' ∧ c = c' := by
  obtain ⟨inner,rfl,hinner⟩ | ⟨hcolon,hplain⟩ := hh
  · obtain ⟨inner',rfl,hinner'⟩ | ⟨-,hplain'⟩ := hh'
    · simp only [List.cons_append, List.append_assoc, List.nil_append, List.cons.injEq, true_and] at heq
      obtain ⟨rfl,htail⟩ := split_at_first hinner hinner' heq
      exact ⟨rfl,(List.cons.inj htail).2⟩
    · exact absurd heq.symm (not_bracket hplain' _ _)
  · obtain ⟨inner',rfl,-⟩ | ⟨hcolon',-⟩ := hh'
    · exact absurd heq (not_bracket hplain _ _)
    · exact split_at_first hcolon hcolon' heq

theorem colon_not_mem_beforeColon (s : Relay.Text) : ':' ∉ Relay.beforeColon s := by
  induction s with
  | nil => simp [Relay.beforeColon]
  | cons a s ih =>
    rw [Relay.beforeColon]
    split
    · simp
    · rename_i hne
      simp [ih, Ne.symm hne]

theorem throughBracket_eq {s : Relay.Text} (h : ']' ∈ s) :
    ∃ inner, Relay.throughBracket s = inner ++ [']'] ∧ ']' ∉ inner := by
  induction s with
  | nil => simp at h
  | cons a s ih =>
    rw [Relay.throughBracket]
    split
    · exact ⟨[],rfl,List.not_mem_nil⟩
    · rename_i hne
      obtain rfl | h := List.mem_cons.mp h
      · exact absurd rfl hne
      · obtain ⟨inner,heq,hinner⟩ := ih h
        exact ⟨a :: inner,by rw [heq, List.cons_append],by simp [hinner, Ne.symm hne]⟩

/-- The host that a relay checks signatures for. -/
theorem authHost_hostLike {s : Relay.Text} (h : s.head? = some '[' → ']' ∈ s) :
    HostLike (Relay.authHost s) := by
  cases s with
  | nil => exact .inr ⟨List.not_mem_nil,by simp [Relay.authHost, Relay.beforeColon]⟩
  | cons a s =>
    by_cases ha : a = '['
    · subst ha
      obtain hin := (List.mem_cons.mp (h rfl)).resolve_left (by decide)
      obtain ⟨inner,heq,hinner⟩ := throughBracket_eq hin
      refine .inl ⟨inner,?_,hinner⟩
      simp [Relay.authHost, Relay.throughBracket, heq]
    · refine .inr ⟨?_,?_⟩
      · simp only [Relay.authHost, List.take_succ_cons, List.take_zero, List.cons.injEq, ha, false_and,
          if_false]
        exact colon_not_mem_beforeColon _
      · simp only [Relay.authHost, List.take_succ_cons, List.take_zero, List.cons.injEq, ha, false_and,
          if_false, Relay.beforeColon]
        split
        · simp
        · simpa using ha

/-- The lower case of one character. -/
def lowerChar (c : Char) : List Char :=
  if c.toNat = 0x212A then ['k'] else if c.toNat = 0x130 then ['i',Char.ofNat 0x307] else [c.toLower]

theorem toList_toLowercase (s : String) : (toLowercase s).toList = s.toList.flatMap lowerChar := by
  simp only [toLowercase, String.toList_ofList]
  rfl

theorem toLower_eq {c d : Char} (hd : d = ':' ∨ d = '[' ∨ d = ']') (h : c.toLower = d) : c = d := by
  unfold Char.toLower at h
  split at h
  · rename_i hupper
    have hval : (c.val+32).toNat = d.val.toNat := congrArg (fun d : Char => d.val.toNat) h
    have hlower : 65 ≤ c.val.toNat := UInt32.le_iff_toNat_le.mp hupper.1
    have hupper : c.val.toNat ≤ 90 := UInt32.le_iff_toNat_le.mp hupper.2
    have hd : d.val.toNat = 58 ∨ d.val.toNat = 91 ∨ d.val.toNat = 93 :=
      hd.imp (congrArg fun d : Char => d.val.toNat)
        (Or.imp (congrArg fun d : Char => d.val.toNat) (congrArg fun d : Char => d.val.toNat))
    rw [UInt32.toNat_add] at hval
    change (c.val.toNat+32)%2^32 = d.val.toNat at hval
    omega
  · exact h

theorem mem_lowerChar {c d : Char} (hd : d = ':' ∨ d = '[' ∨ d = ']') (h : d ∈ lowerChar c) : c = d := by
  unfold lowerChar at h
  split at h
  · obtain rfl := List.mem_singleton.mp h
    simp at hd
  split at h
  · simp only [List.mem_cons, List.not_mem_nil, or_false] at h
    obtain rfl | h := h
    · simp at hd
    · rw [h] at hd
      exact absurd hd (by decide)
  · exact toLower_eq hd (List.mem_singleton.mp h).symm

theorem not_mem_lower {l : List Char} {d : Char} (hd : d = ':' ∨ d = '[' ∨ d = ']') (h : d ∉ l) :
    d ∉ l.flatMap lowerChar := by
  intro hin
  obtain ⟨c,hc,hin⟩ := List.mem_flatMap.mp hin
  exact h (mem_lowerChar hd hin ▸ hc)

theorem hostLike_lower {l : List Char} (h : HostLike l) : HostLike (l.flatMap lowerChar) := by
  obtain ⟨inner,rfl,hinner⟩ | ⟨hcolon,hplain⟩ := h
  · refine .inl ⟨inner.flatMap lowerChar,?_,not_mem_lower (.inr (.inr rfl)) hinner⟩
    have hopen : lowerChar '[' = ['['] := by decide
    have hclose : lowerChar ']' = [']'] := by decide
    simp [hopen, hclose]
  · refine .inr ⟨not_mem_lower (.inl rfl) hcolon,?_⟩
    cases l with
    | nil => simp
    | cons a l =>
      intro hhead
      have hin : '[' ∈ lowerChar a := by
        have hne : lowerChar a ≠ [] := by
          unfold lowerChar
          split
          · simp
          · split <;> simp
        rw [List.flatMap_cons, List.head?_append_of_ne_nil _ hne] at hhead
        exact List.mem_of_mem_head? hhead
      obtain rfl := mem_lowerChar (.inr (.inl rfl)) hin
      exact hplain rfl

theorem hostLike_trim {l : List Char} (h : HostLike l) :
    HostLike (l.reverse.dropWhile (· == '.')).reverse := by
  obtain ⟨inner,rfl,hinner⟩ | ⟨hcolon,hplain⟩ := h
  · refine .inl ⟨inner,?_,hinner⟩
    simp
  · have hinit : (l.reverse.dropWhile (· == '.')).reverse <+: l := by
      have hsuffix := List.dropWhile_suffix (l := l.reverse) (· == '.')
      simpa using List.reverse_prefix.mpr hsuffix
    refine .inr ⟨fun hin => hcolon (hinit.subset hin),fun hhead => hplain ?_⟩
    obtain ⟨rest,hrest⟩ := hinit
    rw [← hrest, List.head?_append_of_ne_nil _ (fun hnil => by simp [hnil] at hhead)]
    exact hhead

/-- URLs name hosts as they should. -/
def NamesHosts (x : Crates) : Prop :=
  ∀ url u h, x.parseUrl url = some u → u.hostStr = some h → HostLike h.toList

theorem serverHost_hostLike {x : Crates} (hx : NamesHosts x) (url : String) :
    HostLike (serverHost x url).toList := by
  unfold serverHost
  cases hparse : x.parseUrl url with
  | none => exact .inr ⟨by simp,by simp⟩
  | some u =>
    cases hhost : u.hostStr with
    | none => exact .inr ⟨by simp [hhost],by simp [hhost]⟩
    | some h =>
      simp only [Option.bind_some, hhost, Option.map_some, Option.getD_some, toList_toLowercase,
        trimEndMatches, String.toList_ofList]
      exact hostLike_lower (hostLike_trim (hx url u h hparse hhost))

/-- The relay's runtime reads texts as the client prints them, its signature scheme accepts only what the
owners of keys have signed in some runs, and what they signed for logging in was for a URL's host. -/
structure HonestSigning (x : Crates) (runs : List Crypto.SigningRun) (rt : Relay.Runtime) : Prop where
  text : ∀ s, rt.textToBytes s = asBytes (String.ofList s)
  unforgeable : ∀ key msg signature, rt.verify key msg signature = true →
    ∃ run ∈ runs, run.signs x = some (key,msg)
  urls : NamesHosts x
  hosts : ∀ id host challenge, .signChallenge id host challenge ∈ runs → ∃ url, host = serverHost x url

section
variable {x : Crates} {runs : List Crypto.SigningRun} {rt : Relay.Runtime} {cfg : Relay.ServiceConfig}

theorem signedText_bytes (h : HonestSigning x runs rt) (challenge : Relay.Text) :
    rt.textToBytes (Relay.signedText cfg.toAuthConfig challenge) =
      Crypto.challengeBytes (String.ofList (Relay.authHost cfg.serverHost)) (String.ofList challenge) := by
  have htext : Relay.signedText cfg.toAuthConfig challenge =
      Crypto.authTag.toList ++ Relay.authHost cfg.serverHost ++ ":".toList ++ challenge := by
    unfold Relay.signedText Crypto.authTag
    rfl
  rw [h.text, Crypto.challengeBytes, htext, String.ofList_append, String.ofList_append,
    String.ofList_append, String.ofList_toList, String.ofList_toList]

/-- A signature that a relay accepts was made for it by the owner of the key, over this challenge. -/
theorem sigValid_signed (h : HonestSigning x runs rt)
    (hhost : cfg.serverHost.head? = some '[' → ']' ∈ cfg.serverHost)
    {pubkey challenge signature : Relay.Text}
    (hvalid : Relay.sigValid rt cfg.toAuthConfig pubkey challenge signature = true) :
    ∃ id url, .signChallenge id (serverHost x url) (String.ofList challenge) ∈ runs ∧
      (serverHost x url).toList = Relay.authHost cfg.serverHost ∧
      rt.bytesFromHex pubkey = some id.publicKey := by
  unfold Relay.sigValid at hvalid
  cases hpk : rt.bytesFromHex pubkey with
  | none => simp [hpk] at hvalid
  | some pk =>
  cases hsig : rt.bytesFromHex signature with
  | none => simp [hpk, hsig] at hvalid
  | some sigBytes =>
    simp only [hpk, hsig] at hvalid
    obtain ⟨run,hrun,hsigns⟩ := h.unforgeable _ _ _ hvalid
    rw [signedText_bytes h] at hsigns
    cases run with
    | encrypt rng sender recipientEdPub hlen plaintext =>
      simp only [Crypto.SigningRun.signs, guard, Option.bind_eq_bind, Option.bind_eq_some_iff, Option.pure_def,
        Option.some.injEq, Prod.mk.injEq] at hsigns
      obtain ⟨_,-,_,-,_,-,-,hbytes⟩ := hsigns
      rw [Crypto.messageBytes, List.append_assoc] at hbytes
      exact absurd hbytes.symm (Crypto.challengeBytes_ne _ _ _)
    | signChallenge id host challenge' =>
      simp only [Crypto.SigningRun.signs, Option.ite_none_left_eq_some, Option.some.injEq,
        Prod.mk.injEq] at hsigns
      obtain ⟨-,rfl,hbytes⟩ := hsigns
      obtain ⟨url,rfl⟩ := h.hosts id host challenge' hrun
      have hstrings := congrArg String.toList (asBytes_injective hbytes)
      simp only [String.toList_append, List.append_assoc, List.append_cancel_left_eq,
        String.toList_ofList] at hstrings
      obtain ⟨hsame,rfl⟩ := hostLike_inj (serverHost_hostLike h.urls url) (authHost_hostLike hhost) hstrings
      exact ⟨id,url,by simpa using hrun,hsame,rfl⟩

/-- In every run, mail goes only to those whose key has signed, for the host of this very relay, a
challenge that it issued: what was signed for another host opens no mailbox here. -/
theorem mail_only_for_signers_here (h : HonestSigning x runs rt)
    (hhost : cfg.serverHost.head? = some '[' → ']' ∈ cfg.serverHost)
    {acts : List Relay.ServiceAct} {s : Relay.Service} {log : Relay.ServiceLog}
    (hrun : Lts.run (Lts.watch (Relay.Service.step cfg rt) (Relay.Service.note cfg rt)) ({},{}) acts =
      some (s,log)) :
    ∀ e ∈ log.pages, ∃ r ∈ log.auth.redeemed, ∃ id url,
      e.1.authorization = "Bearer ".toList ++ r.request.token ∧ r.challenge ∈ log.auth.issued ∧
      rt.bytesFromHex e.1.pubkey = some id.publicKey ∧
      (serverHost x url).toList = Relay.authHost cfg.serverHost ∧
      .signChallenge id (serverHost x url) (String.ofList r.challenge.challenge) ∈ runs := by
  have hguarded := Relay.Service.guarded_run hrun
  intro e he
  obtain ⟨⟨r,hr,hsound,hkey,hbearer,-,-⟩,-⟩ := hguarded.pages e he
  obtain ⟨id,url,hsigned,hhere,hpk⟩ := sigValid_signed h hhost hsound.signed
  refine ⟨r,hr,id,url,hbearer,?_,?_,hhere,hsigned⟩
  · have hissued := hguarded.once.challenges.subset (List.mem_append_left _ (List.mem_map_of_mem hr))
    simpa using hissued
  · rw [← hkey, ← hpk, hsound.pubkey]
    rfl

end

/-- The owner of a sample key, who has signed one challenge. -/
def sampleSigner : Crypto.Identity := ⟨List.replicate 32 0 ++ List.replicate 32 170,[],[]⟩

/-- A runtime for which that signature is the only one. -/
def signerRuntime : Relay.Runtime where
  bytesFromHex := Hex.decodeChars
  textToBytes s := asBytes (String.ofList s)
  verify key msg _ := key = sampleSigner.publicKey ∧ msg = Crypto.challengeBytes "localhost" "c"

theorem signer_honest : HonestSigning .sample
    [.signChallenge sampleSigner (serverHost .sample "http://localhost:8080") "c"] signerRuntime where
  text _ := rfl
  unforgeable key msg signature hverify := by
    refine ⟨_,List.mem_singleton_self _,?_⟩
    obtain ⟨rfl,rfl⟩ := of_decide_eq_true hverify
    decide
  urls url u h hparse hhost := by
    simp only [Crates.sample, List.findSome?_eq_some_iff] at hparse
    obtain ⟨_,port,_,-,hport,-⟩ := hparse
    have hport := (Option.ite_none_right_eq_some.mp hport).2
    obtain rfl := Option.some.inj hport
    obtain rfl := Option.some.inj hhost
    exact .inr ⟨by decide,by decide⟩
  hosts id host challenge hin := by
    obtain ⟨rfl,rfl,rfl⟩ := (by simpa using hin)
    exact ⟨_,rfl⟩

def sampleHost : Relay.ServiceConfig := { serverHost := "localhost:8080".toList, federationEnabled := true }

/-- A key logs in and polls down what another relay forwards to it. -/
def sampleVisit : List Relay.ServiceAct :=
  [.request (.reqChallenge (Relay.sampleKey 'a') none) 0 ['c'],
    .request (.verifyAuth (Relay.sampleKey 'a') ['c'] (List.replicate 128 '0') false none) 0 ['t'],
    .verify 0,.install 0,
    .request (.poll 0 "Bearer t".toList none) 1 [],
    .request (.forwardMessage (Relay.sampleKey 'a') (Relay.sampleBlob '1')) 2 [],.collect 0 2]

theorem mail_only_for_signers_here_posted : ∃ s log p,
    Lts.run (Lts.watch (Relay.Service.step sampleHost signerRuntime)
      (Relay.Service.note sampleHost signerRuntime)) ({},{})
      sampleVisit = some (s,log) ∧
    (p,⟨[Relay.sampleBlob '1'],2⟩) ∈ log.pages ∧ ∃ id : Crypto.Identity, p.pubkey = Relay.sampleKey 'a' ∧
      signerRuntime.bytesFromHex p.pubkey = some id.publicKey := by
  have hrun : (Lts.run (Lts.watch (Relay.Service.step sampleHost signerRuntime)
      (Relay.Service.note sampleHost signerRuntime)) ({},{})
      sampleVisit).any
      (fun s => s.2.pages.any fun e =>
        e.1.pubkey = Relay.sampleKey 'a' && e.2 = ⟨[Relay.sampleBlob '1'],2⟩) = true := by
    decide +kernel
  simp only [Option.any_eq_true, List.any_eq_true, Bool.and_eq_true, decide_eq_true_eq, Prod.exists] at hrun
  obtain ⟨s,log,hs,p,page,hmem,hkey,rfl⟩ := hrun
  obtain ⟨_,-,id,_,-,-,hpk,-⟩ := mail_only_for_signers_here signer_honest (by decide) hs _ hmem
  exact ⟨s,log,p,hs,hmem,id,hkey,hpk⟩

end Skrepka.Exchange
