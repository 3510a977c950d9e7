import HAS.OnResult
import HAS.ExecScript
import HAS.RecogResult
import HAS.TextToSpeech
import HAS.Reentrancy
import HAS.Wrappers
import HAS.ExportToJS
import HAS.Accessors
import HAS.IRemocon
import HAS.Buffers
import HAS.InvalidPatterns
import HAS.JPCommonLines
import HAS.NumberReading
import HAS.TreeText
import HAS.GrammarSwitches
