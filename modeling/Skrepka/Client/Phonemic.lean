import Skrepka.Lib.Hex

/-! The `@p` spelling of keys: every byte pair is a prefix and a suffix syllable. -/
namespace Skrepka.Client.Phonemic
open Rust

def prefixes : List String :=
  ["doz","mar","bin","wan","sam","lit","sig","hid","fid","lis","sog","dir","wac","sab","wis",
   "sib","rig","sol","dop","mod","fog","lid","hop","dar","dor","lor","hod","fol","rin","tog",
   "sil","mir","hol","pas","lac","rov","liv","dal","sat","lib","tab","han","tic","pid","tor",
   "bol","fos","dot","los","dil","for","pil","ram","tir","win","tad","bic","dif","roc","wid",
   "bis","das","mid","lop","ril","nar","dap","mol","san","loc","nov","sit","nid","tip","sic",
   "rop","wit","nat","pan","min","rit","pod","mot","tam","tol","sav","pos","nap","nop","som",
   "fin","fon","ban","mor","wor","sip","ron","nor","bot","wic","soc","wat","dol","mag","pic",
   "dav","bid","bal","tim","tas","mal","lig","siv","tag","pad","sal","div","dac","tan","sid",
   "fab","tar","mon","ran","nis","wol","mis","pal","las","dis","map","rab","tob","rol","lat",
   "lon","nod","nav","fig","nom","nib","pag","sop","ral","bil","had","doc","rid","moc","pac",
   "rav","rip","fal","tod","til","tin","hap","mic","fan","pat","tac","lab","mog","sim","son",
   "pin","lom","ric","tap","fir","has","bos","bat","poc","hac","tid","hav","sap","lin","dib",
   "hos","dab","bit","bar","rac","par","lod","dos","bor","toc","hil","mac","tom","dig","fil",
   "fas","mit","hob","har","mig","hin","rad","mas","hal","rag","lag","fad","top","mop","hab",
   "nil","nos","mil","fop","fam","dat","nol","din","hat","nac","ris","fot","rib","hoc","nim",
   "lar","fit","wal","rap","sar","nal","mos","lan","don","dan","lad","dov","riv","bac","pol",
   "lap","tal","pit","nam","bon","ros","ton","fod","pon","sov","noc","sor","lav","mat","mip",
   "fip"]

def suffixes : List String :=
  ["zod","nec","bud","wes","sev","per","sut","let","ful","pen","syt","dur","wep","ser","wyl",
   "sun","ryp","syx","dyr","nup","heb","peg","lup","dep","dys","put","lug","hec","ryt","tyv",
   "syd","nex","lun","mep","lut","sep","pes","del","sul","ped","tem","led","tul","met","wen",
   "byn","hex","feb","pyl","dul","het","mev","rut","tyl","wyd","tep","bes","dex","sef","wyc",
   "bur","der","nep","pur","rys","reb","den","nut","sub","pet","rul","syn","reg","tyd","sup",
   "sem","wyn","rec","meg","net","sec","mul","nym","tev","web","sum","mut","nyx","rex","teb",
   "fus","hep","ben","mus","wyx","sym","sel","ruc","dec","wex","syr","wet","dyl","myn","mes",
   "det","bet","bel","tux","tug","myr","pel","syp","ter","meb","set","dut","deg","tex","sur",
   "fel","tud","nux","rux","ren","wyt","nub","med","lyt","dus","neb","rum","tyn","seg","lyx",
   "pun","res","red","fun","rev","ref","mec","ted","rus","bex","leb","dux","ryn","num","pyx",
   "ryg","ryx","fep","tyr","tus","tyc","leg","nem","fer","mer","ten","lus","nus","syl","tec",
   "mex","pub","rym","tuc","fyl","lep","deb","ber","mug","hut","tun","byl","sud","pem","dev",
   "lur","def","bus","bep","run","mel","pex","dyt","byt","typ","lev","myl","wed","duc","fur",
   "fex","nul","luc","len","ner","lex","rup","ned","lec","ryd","lyd","fen","wel","nyd","hus",
   "rel","rud","nes","hes","fet","des","ret","dun","ler","nyr","seb","hul","ryl","lud","rem",
   "lys","fyn","wer","ryc","sug","nys","nyl","lyn","dyn","dem","lux","fed","sed","bec","mun",
   "lyr","tes","mud","nyt","byr","sen","weg","fyr","mur","tel","rep","teg","pec","nel","nev",
   "fes"]

def prefixIndex (s : String) : Option UInt8 := (prefixes.findIdx? (· == s)).map UInt8.ofNat
def suffixIndex (s : String) : Option UInt8 := (suffixes.findIdx? (· == s)).map UInt8.ofNat

def syllables : Bytes → List String
  | hi :: lo :: bs => (prefixes.getD hi.toNat "" ++ suffixes.getD lo.toNat "") :: syllables bs
  | _ => []

/-- Encode bytes as a hyphen-joined `@p` string; `none` for an empty or odd-length input. -/
def toOb (bs : Bytes) : Option String :=
  if bs.isEmpty then none
  else if bs.length % 2 ≠ 0 then none
  else some ("-".intercalate (syllables bs))

def decodeParts : List String → Option Bytes
  | [] => some []
  | part :: parts => do
    if len part ≠ 6 ∨ ¬ part.toList.all (fun c => c.toNat < 128) then none
    let hi ← prefixIndex (String.ofList (part.toList.take 3))
    let lo ← suffixIndex (String.ofList (part.toList.drop 3))
    let rest ← decodeParts parts
    return hi :: lo :: rest

def splitHyphen (s : String) : List String := (s.toList.splitOn '-').map String.ofList

/-- Decode a `@p` string of either case; empty parts are skipped. -/
def fromOb (s : String) : Option Bytes :=
  let parts := (splitHyphen (toLowercase s)).filter (fun p => p ≠ "")
  if parts.isEmpty then none else decodeParts parts

/-- Full `@p` rendering of a hex key, or the input itself when it has none. -/
def hexToOb (hexKey : String) : String :=
  ((Hex.decode hexKey).bind toOb).getD hexKey

/-- Truncated `@p`: first two and last two syllables. -/
def truncOb (hexKey : String) : String :=
  let ob := hexToOb hexKey
  let parts := splitHyphen ob
  if parts.length > 4 then
    parts.getD 0 "" ++ "-" ++ parts.getD 1 "" ++ "-…-" ++ parts.getD (parts.length-2) "" ++ "-" ++
      parts.getD (parts.length-1) ""
  else ob

/-- `valid_pubkey_hex`: the lowercase hex of 32 bytes that the verifier accepts as a key. -/
def validPubkeyHex (verifyingKey : Bytes → Bool) (bs : Bytes) : Option String :=
  if bs.length = 32 ∧ verifyingKey bs = true then some (Hex.encode bs) else none

/-- `try_parse_pubkey`: a contact identifier as `@p` or as hex. -/
def tryParsePubkey (verifyingKey : Bytes → Bool) (input : String) : Option String :=
  let trimmed := trim input
  match (fromOb trimmed).bind (validPubkeyHex verifyingKey) with
  | some hex => some hex
  | none => match Hex.decode trimmed with
    | some bs => validPubkeyHex verifyingKey bs
    | none => none

end Skrepka.Client.Phonemic
